import OsLabs.Fs.LogOverflow

namespace OsLabs.Fs
open RedoLog

variable {ι : Type} {area : LogArea} {budget : Nat} {disk durable : Nat → Block} {h : List Nat}

/-- A header that `commit` can have written. -/
structure ValidHeader (area : LogArea) (h : List Nat) : Prop where
  once : h.Nodup
  home : ∀ b ∈ h, area.Home b
  few : h.length ≤ LOGSIZE
  room : h.length < area.size

/-- The logged copies with their home block numbers. -/
def logEntries (area : LogArea) (disk : Nat → Block) (h : List Nat) : List (Nat × Block) :=
  h.mapIdx fun i b => (b, disk (area.start + i + 1))

/-- The disk that `recover_from_log` would leave. -/
def recovered (area : LogArea) (disk : Nat → Block) : Nat → Block :=
  install (logEntries area disk (getHeader (disk area.start))) disk

/-- The disk, with header `h`, stands for the contents `durable`. -/
structure Image (area : LogArea) (disk : Nat → Block) (h : List Nat) (durable : Nat → Block) : Prop where
  header : getHeader (disk area.start) = h
  valid : ValidHeader area h
  slots : ∀ i (inside : i < h.length), disk (area.start + i + 1) = durable h[i]
  rest : ∀ b, area.Home b → b ∉ h → disk b = durable b

theorem LogArea.Home.ne_header {b : Nat} (home : area.Home b) (within : 0 < area.size) : b ≠ area.start := by
  obtain ⟨_, outside⟩ := home
  omega

theorem LogArea.Home.ne_slot {b i : Nat} (home : area.Home b) (within : i + 1 < area.size) : b ≠ area.start + i + 1 := by
  obtain ⟨_, outside⟩ := home
  omega

theorem logEntries_keys (area : LogArea) (disk : Nat → Block) (h : List Nat) :
    (logEntries area disk h).map Prod.fst = h := by
  refine List.ext_getElem (by simp [logEntries]) fun i _ _ => ?_
  simp [logEntries]

theorem logEntries_mem {i : Nat} (disk : Nat → Block) (inside : i < h.length) :
    (h[i], disk (area.start + i + 1)) ∈ logEntries area disk h :=
  List.mem_mapIdx.mpr ⟨i, inside, rfl⟩

theorem Image.recovered (image : Image area disk h durable) {b : Nat} (home : area.Home b) :
    recovered area disk b = durable b := by
  unfold Fs.recovered
  rw [image.header]
  by_cases logged : b ∈ h
  · obtain ⟨i, inside, rfl⟩ := List.mem_iff_getElem.mp logged
    have once : ((logEntries area disk h).map Prod.fst).Nodup := by
      rw [logEntries_keys]
      exact image.valid.once
    rw [install_logged disk once (logEntries_mem disk inside), image.slots i inside]
  · rw [install_other _ (by rwa [logEntries_keys]), image.rest b home logged]

/-- Every disk with a valid header stands for what recovery makes of it. -/
theorem Image.of_valid (valid : ValidHeader area (getHeader (disk area.start))) :
    Image area disk (getHeader (disk area.start)) (Fs.recovered area disk) := by
  refine ⟨rfl, valid, fun i inside => ?_, fun b home unlogged => ?_⟩
  · have once : ((logEntries area disk (getHeader (disk area.start))).map Prod.fst).Nodup := by
      rw [logEntries_keys]
      exact valid.once
    rw [Fs.recovered, install_logged disk once (logEntries_mem disk inside)]
  · rw [Fs.recovered, install_other _ (by rwa [logEntries_keys])]

/-- A home block is written: the image keeps standing for the same contents when the block is logged, or when
it gets those contents. -/
theorem Image.write_home (image : Image area disk h durable) {b : Nat} {data : Block} (home : area.Home b)
    (same : b ∉ h → data = durable b) : Image area (Function.update disk b data) h durable := by
  have room := image.valid.room
  refine ⟨?_, image.valid, fun i inside => ?_, fun c inHome unlogged => ?_⟩
  · rw [Function.update_of_ne (home.ne_header (by omega)).symm, image.header]
  · rw [Function.update_of_ne (home.ne_slot (by omega)).symm, image.slots i inside]
  · by_cases here : c = b
    · rw [here, Function.update_self, same (here ▸ unlogged)]
    · rw [Function.update_of_ne here, image.rest c inHome unlogged]

/-- A log block is written while the header is empty. -/
theorem Image.write_slot (image : Image area disk [] durable) {i : Nat} {data : Block} (within : i + 1 < area.size) :
    Image area (Function.update disk (area.start + i + 1) data) [] durable := by
  refine ⟨?_, image.valid, nofun, fun c home _ => ?_⟩
  · rw [Function.update_of_ne (by omega), image.header]
  · rw [Function.update_of_ne (home.ne_slot within), image.rest c home List.not_mem_nil]

/-- The header is written: with the logged copies of `contents` in place and the other home blocks already as in
`contents`, the disk stands for `contents`. -/
theorem Image.write_header {contents : Nat → Block} {hb : Block} (valid : ValidHeader area h)
    (slots : ∀ i (inside : i < h.length), disk (area.start + i + 1) = contents h[i])
    (rest : ∀ b, area.Home b → b ∉ h → disk b = contents b) :
    Image area (Function.update disk area.start (putHeader h hb)) h contents := by
  have room := valid.room
  refine ⟨?_, valid, fun i inside => ?_, fun b home unlogged => ?_⟩
  · rw [Function.update_self, getHeader_putHeader hb valid.few fun b logged => (valid.home b logged).1]
  · rw [Function.update_of_ne (by omega), slots i inside]
  · rw [Function.update_of_ne (home.ne_header (by omega)), rest b home unlogged]

namespace State
variable {s : State ι} {b c : Nat} {data : Block} {pins : List Nat}

/-- Clean buffers hold what the disk holds, and only blocks of `pins` are dirty. -/
structure Cached (s : State ι) (pins : List Nat) : Prop where
  clean : ∀ b data, s.cache b = some ⟨data, false⟩ → data = s.disk b
  pinned : ∀ b data, s.cache b = some ⟨data, true⟩ → b ∈ pins

theorem Cached.contents (cached : s.Cached pins) (unpinned : b ∉ pins) : s.contents b = s.disk b := by
  unfold State.contents
  split
  · rename_i buf found
    obtain ⟨data, dirty⟩ := buf
    cases dirty with
    | false => exact cached.clean b data found
    | true => exact absurd (cached.pinned b data found) unpinned
  · rfl

@[simp] theorem contents_bread (s : State ι) (b c : Nat) : (s.bread b).contents c = s.contents c := by
  by_cases here : c = b
  · subst here
    unfold State.contents State.bread
    cases s.cache c <;> simp
  · simp [State.contents, State.bread, Function.update_of_ne here]

theorem Cached.bread (cached : s.Cached pins) (b : Nat) : (s.bread b).Cached pins := by
  constructor <;> intro c data found <;> simp only [State.bread] at found ⊢ <;> by_cases here : c = b
  · subst here
    rw [Function.update_self] at found
    cases old : s.cache c with
    | none =>
      simp only [old, Option.getD_none, Option.some.injEq, Buf.mk.injEq, and_true] at found
      exact found.symm
    | some buf => exact cached.clean c data (by simpa only [old, Option.getD_some] using found)
  · rw [Function.update_of_ne here] at found
    exact cached.clean c data found
  · subst here
    rw [Function.update_self] at found
    cases old : s.cache c with
    | none => simp [old] at found
    | some buf => exact cached.pinned c data (by simpa only [old, Option.getD_some] using found)
  · rw [Function.update_of_ne here] at found
    exact cached.pinned c data found

theorem Cached.evict (cached : s.Cached pins) (b : Nat) :
    State.Cached { s with cache := Function.update s.cache b none } pins := by
  constructor <;> intro c data found <;> have kept := found <;> by_cases here : c = b
  · simp [here] at kept
  · exact cached.clean c data (by simpa [Function.update_of_ne here] using kept)
  · simp [here] at kept
  · exact cached.pinned c data (by simpa [Function.update_of_ne here] using kept)

theorem contents_evict (cached : s.Cached pins) (clean : s.cache b = some ⟨data, false⟩) (c : Nat) :
    State.contents { s with cache := Function.update s.cache b none } c = s.contents c := by
  by_cases here : c = b
  · subst here
    simp [State.contents, clean, cached.clean c data clean]
  · simp [State.contents, Function.update_of_ne here]

theorem contents_bwrite (s : State ι) (b : Nat) (data : Block) :
    (s.bwrite b data).contents = Function.update s.contents b data := by
  funext c
  by_cases here : c = b
  · simp [here, State.contents, State.bwrite]
  · simp [State.contents, State.bwrite, Function.update_of_ne here]

/-- Writing a block unpins it. -/
theorem Cached.bwrite {pins' : List Nat} (cached : s.Cached pins) (rest : ∀ c ∈ pins, c ≠ b → c ∈ pins') :
    (s.bwrite b data).Cached pins' := by
  constructor <;> intro c data' found <;> simp only [State.bwrite] at found ⊢ <;> by_cases here : c = b
  · subst here
    rw [Function.update_self] at found ⊢
    cases found
    rfl
  · rw [Function.update_of_ne here] at found ⊢
    exact cached.clean c data' found
  · subst here
    rw [Function.update_self] at found
    cases found
  · rw [Function.update_of_ne here] at found
    exact rest c (cached.pinned c data' found) here

theorem Cached.logWrite {pins' : List Nat} (cached : s.Cached pins) (more : ∀ c, c = b ∨ c ∈ pins → c ∈ pins') :
    (s.logWrite b data).Cached pins' := by
  constructor <;> intro c data' found <;> simp only [State.logWrite] at found ⊢ <;> by_cases here : c = b
  · subst here
    rw [Function.update_self] at found
    cases found
  · rw [Function.update_of_ne here] at found
    exact cached.clean c data' found
  · exact more c (.inl here)
  · rw [Function.update_of_ne here] at found
    exact more c (.inr (cached.pinned c data' found))

theorem contents_logWrite (s : State ι) (b : Nat) (data : Block) :
    (s.logWrite b data).contents = Function.update s.contents b data := by
  funext c
  by_cases here : c = b
  · simp [here, State.contents, State.logWrite]
  · simp [State.contents, State.logWrite, Function.update_of_ne here]

/-- Copying a block writes its contents to the disk and to the buffer of the destination. -/
theorem copyBlock_eq (s : State ι) (dst src : Nat) :
    s.copyBlock dst src = ((s.bread dst).bread src).bwrite dst (s.contents src) := by
  simp [State.copyBlock]

theorem copyBlock_disk (s : State ι) (dst src : Nat) :
    (s.copyBlock dst src).disk = Function.update s.disk dst (s.contents src) := by
  rw [copyBlock_eq]
  rfl

theorem copyBlock_contents (s : State ι) (dst src : Nat) :
    (s.copyBlock dst src).contents = Function.update s.contents dst (s.contents src) := by
  rw [copyBlock_eq, contents_bwrite]
  congr 1
  funext c
  rw [contents_bread, contents_bread]

theorem Cached.copyBlock {pins' : List Nat} {dst src : Nat} (cached : s.Cached pins)
    (rest : ∀ c ∈ pins, c ≠ dst → c ∈ pins') : (s.copyBlock dst src).Cached pins' := by
  rw [copyBlock_eq]
  exact ((cached.bread dst).bread src).bwrite rest

theorem writeHead_disk (s : State ι) : (s.writeHead area).disk =
    Function.update s.disk area.start (putHeader s.log.lh (s.contents area.start)) := by
  simp only [State.writeHead, State.bwrite, contents_bread]
  rfl

theorem writeHead_contents (s : State ι) : (s.writeHead area).contents =
    Function.update s.contents area.start (putHeader s.log.lh (s.contents area.start)) := by
  unfold State.writeHead
  dsimp only
  rw [contents_bwrite, contents_bread]
  congr 1
  funext c
  rw [contents_bread]

theorem Cached.writeHead {pins' : List Nat} (cached : s.Cached pins) (rest : ∀ c ∈ pins, c ≠ area.start → c ∈ pins') :
    (s.writeHead area).Cached pins' := (cached.bread area.start).bwrite rest

theorem readHead_log (s : State ι) :
    (s.readHead area).log = { s.log with lh := getHeader (s.contents area.start) } := by
  simp only [State.readHead, contents_bread]
  rfl

end State

/-- The blocks whose buffers `B_DIRTY` may pin at each point. -/
def Stage.pins (lh : List Nat) : Stage → List Nat
  | .serving | .writeLog _ | .writeHead => lh
  | .install tail => lh.drop tail
  | _ => []

/-- Reads return the current contents: everywhere but before the log has been installed. -/
def Stage.Reads : Stage → Prop
  | .readHead | .reinstall _ => False
  | _ => True

/-- What the points of `recover_from_log` and `commit` know of the disk, its header `h` and the logged blocks. -/
def Stage.Agrees (area : LogArea) (disk : Nat → Block) (lh h : List Nat) (store : Store Nat Block) : Stage → Prop
  | .readHead => store.current = store.durable
  | .reinstall tail | .install tail => lh = h ∧ store.current = store.durable ∧
      ∀ b, area.Home b → b ∉ h.drop tail → disk b = store.durable b
  | .reclear | .clear => lh = [] ∧ store.current = store.durable ∧ ∀ b, area.Home b → disk b = store.durable b
  | .serving => h = [] ∧ ∀ b, b ∉ lh → store.current b = store.durable b
  | .writeLog tail => h = [] ∧ (∀ b, b ∉ lh → store.current b = store.durable b) ∧
      ∀ i (inside : i < lh.length), i < tail → disk (area.start + i + 1) = store.current lh[i]
  | .writeHead => h = [] ∧ (∀ b, b ∉ lh → store.current b = store.durable b) ∧
      ∀ i (inside : i < lh.length), disk (area.start + i + 1) = store.current lh[i]
  | .committed => h = [] ∧ lh = [] ∧ store.current = store.durable
  | .panicked _ => h = []

/-- The machine and the store it implements. -/
structure Matches (area : LogArea) (s : State ι) (store : Store Nat Block) (h : List Nat) : Prop where
  active : store.active = s.log.outstanding
  cached : s.Cached (s.stage.pins s.log.lh)
  image : Image area s.disk h store.durable
  agrees : s.stage.Agrees area s.disk s.log.lh h store
  reads : s.stage.Reads → ∀ b, area.Home b → s.contents b = store.current b

theorem mem_drop_succ {l : List Nat} {k b c : Nat} (here : l[k]? = some b) (member : c ∈ l.drop k) (other : c ≠ b) :
    c ∈ l.drop (k + 1) := by
  obtain ⟨inside, rfl⟩ := List.getElem?_eq_some_iff.mp here
  rw [List.drop_eq_getElem_cons inside, List.mem_cons] at member
  exact member.resolve_left other

/-- One turn of `install_trans`'s loop on the disk. -/
theorem Image.install_block {tail b : Nat} (image : Image area disk h durable)
    (done : ∀ c, area.Home c → c ∉ h.drop tail → disk c = durable c) (logged : h[tail]? = some b) :
    Image area (Function.update disk b (disk (area.start + tail + 1))) h durable ∧
      ∀ c, area.Home c → c ∉ h.drop (tail + 1) →
        Function.update disk b (disk (area.start + tail + 1)) c = durable c := by
  obtain ⟨inside, rfl⟩ := List.getElem?_eq_some_iff.mp logged
  rw [image.slots tail inside]
  refine ⟨image.write_home (image.valid.home _ (List.getElem_mem inside)) fun _ => rfl, fun c home undone => ?_⟩
  by_cases here : c = h[tail]
  · rw [here, Function.update_self]
  · rw [Function.update_of_ne here]
    exact done c home fun member => undone (mem_drop_succ logged member here)

namespace Matches
variable {s : State ι} {store : Store Nat Block}

/-- A crash loses the buffers and keeps the disk. -/
theorem crash (m : Matches area s store h) : Matches area (State.restart (ι := ι) s.disk) (store.next .crash) h :=
  ⟨rfl, ⟨nofun, nofun⟩, m.image, rfl, nofun⟩

theorem boot (image : Image area disk h durable) :
    Matches area (State.restart (ι := ι) disk) ⟨durable, durable, 0⟩ h :=
  ⟨rfl, ⟨nofun, nofun⟩, image, rfl, nofun⟩

theorem readHead (m : Matches area s store h) (stage : s.stage = .readHead) :
    Matches area { s.readHead area with stage := .reinstall 0 } store h := by
  obtain ⟨active, cached, image, agrees, -⟩ := m
  rw [stage] at cached agrees
  have found := cached.contents (b := area.start) List.not_mem_nil
  have header : (s.readHead area).log = { s.log with lh := h } := by
    rw [State.readHead_log, found, image.header]
  refine ⟨?_, ⟨(cached.bread area.start).clean, (cached.bread area.start).pinned⟩, image, ?_, False.elim⟩
  · dsimp only
    rw [header]
    exact active
  · dsimp only
    rw [header]
    exact ⟨rfl, agrees, image.rest⟩

theorem reinstall {tail b : Nat} (m : Matches area s store h) (stage : s.stage = .reinstall tail)
    (logged : s.log.lh[tail]? = some b) :
    Matches area { s.copyBlock b (area.start + tail + 1) with stage := .reinstall (tail + 1) } store h := by
  obtain ⟨active, cached, image, agrees, -⟩ := m
  rw [stage] at cached agrees
  obtain ⟨same, synced, done⟩ := agrees
  obtain ⟨image', done'⟩ := image.install_block done (same ▸ logged)
  have source := cached.contents (b := area.start + tail + 1) List.not_mem_nil
  have written : (s.copyBlock b (area.start + tail + 1)).Cached [] := cached.copyBlock nofun
  refine ⟨active, ⟨written.clean, written.pinned⟩, ?_, ⟨same, synced, ?_⟩, nofun⟩
  · rwa [State.copyBlock_disk, source]
  · rwa [State.copyBlock_disk, source]

theorem reinstalled {tail : Nat} (m : Matches area s store h) (stage : s.stage = .reinstall tail)
    (all : s.log.lh.length ≤ tail) :
    Matches area { s with log := { s.log with lh := [] }, stage := .reclear } store h := by
  obtain ⟨active, cached, image, agrees, -⟩ := m
  rw [stage] at cached agrees
  obtain ⟨same, synced, done⟩ := agrees
  rw [← same, List.drop_eq_nil_of_le all] at done
  have written : ∀ b, area.Home b → s.disk b = store.durable b := fun b home => done b home List.not_mem_nil
  refine ⟨active, ⟨cached.clean, cached.pinned⟩, image, ⟨rfl, synced, written⟩, fun _ b home => ?_⟩
  rw [synced, ← written b home]
  exact cached.contents List.not_mem_nil

/-- `write_head` with an empty log, after the blocks are home. -/
theorem cleared (m : Matches area s store h) (none : s.log.lh = []) (clean : s.Cached [])
    (written : ∀ b, area.Home b → s.disk b = store.durable b)
    (reads : ∀ b, area.Home b → s.contents b = store.current b) :
    Image area (s.writeHead area).disk [] store.durable ∧ (s.writeHead area).Cached [] ∧
      ∀ b, area.Home b → (s.writeHead area).contents b = store.current b := by
  have room := m.image.valid.room
  refine ⟨?_, clean.writeHead nofun, fun b home => ?_⟩
  · rw [State.writeHead_disk, none]
    exact .write_header ⟨List.nodup_nil, nofun, Nat.zero_le _, Nat.zero_lt_of_lt room⟩ nofun
      fun b home _ => written b home
  · rw [State.writeHead_contents, Function.update_of_ne (home.ne_header (Nat.zero_lt_of_lt room)), reads b home]

theorem reclear (m : Matches area s store h) (stage : s.stage = .reclear) :
    Matches area { s.writeHead area with stage := .serving } store [] := by
  have whole := m
  obtain ⟨active, cached, image, agrees, reads⟩ := m
  rw [stage] at cached agrees reads
  obtain ⟨none, synced, written⟩ := agrees
  obtain ⟨image', cached', reads'⟩ := whole.cleared none cached written (reads trivial)
  refine ⟨active, ⟨cached'.clean, fun b data found => absurd (cached'.pinned b data found) List.not_mem_nil⟩, image',
    ⟨rfl, fun b _ => congrFun synced b⟩, fun _ => reads'⟩

theorem clear (m : Matches area s store h) (stage : s.stage = .clear) :
    Matches area { s.writeHead area with stage := .committed } store [] := by
  have whole := m
  obtain ⟨active, cached, image, agrees, reads⟩ := m
  rw [stage] at cached agrees reads
  obtain ⟨none, synced, written⟩ := agrees
  obtain ⟨image', cached', reads'⟩ := whole.cleared none cached written (reads trivial)
  exact ⟨active, ⟨cached'.clean, cached'.pinned⟩, image', ⟨rfl, none, synced⟩, fun _ => reads'⟩

theorem append {b : Nat} {data : Block} (m : Matches area s store h) (stage : s.stage = .serving) :
    Matches area (s.logWrite b data) (store.next (.write b data)) h := by
  obtain ⟨active, cached, image, agrees, reads⟩ := m
  rw [stage] at cached agrees reads
  obtain ⟨empty, unlogged⟩ := agrees
  refine ⟨active, ?_, image, ?_, fun _ c home => ?_⟩
  · rw [show (s.logWrite b data).stage = .serving from stage]
    exact cached.logWrite fun c => mem_absorb.mpr
  · rw [show (s.logWrite b data).stage = .serving from stage]
    refine ⟨empty, fun c absent => ?_⟩
    obtain ⟨other, before⟩ := not_or.mp fun here => absent (mem_absorb.mpr here)
    exact (Function.update_of_ne other data store.current).trans (unlogged c before)
  · rw [State.contents_logWrite]
    by_cases here : c = b
    · rw [here, Function.update_self]
      exact (Function.update_self b data store.current).symm
    · rw [Function.update_of_ne here, reads trivial c home]
      exact (Function.update_of_ne here data store.current).symm

/-- Only the log's counters or the processes change. -/
theorem counters {s' : State ι} {store' : Store Nat Block} (m : Matches area s store h) (stage : s'.stage = s.stage)
    (disk : s'.disk = s.disk) (cache : s'.cache = s.cache) (lh : s'.log.lh = s.log.lh)
    (active : store'.active = s'.log.outstanding) (durable : store'.durable = store.durable)
    (current : store'.current = store.current) : Matches area s' store' h := by
  obtain ⟨disk', cache', log', stage', proc'⟩ := s'
  obtain ⟨durable', current', active'⟩ := store'
  simp only at stage disk cache lh active durable current
  subst stage disk cache durable current active
  obtain ⟨_, cached, image, agrees, reads⟩ := m
  refine ⟨rfl, ?_, image, ?_, reads⟩
  · simp only [lh]
    exact ⟨cached.clean, cached.pinned⟩
  · simp only [lh]
    cases point : s.stage <;> rw [point] at agrees <;> exact agrees

theorem finishLast {log : Log} {proc : ι → Pos} (m : Matches area s store h) (stage : s.stage = .serving)
    (lh : log.lh = s.log.lh) (calls : log.outstanding = s.log.outstanding - 1) :
    Matches area ⟨s.disk, s.cache, log, if log.lh.length > 0 then .writeLog 0 else .committed, proc⟩
      (store.next .leave) h := by
  obtain ⟨active, cached, image, agrees, reads⟩ := m
  rw [stage] at cached agrees reads
  obtain ⟨empty, unlogged⟩ := agrees
  have less : store.active - 1 = log.outstanding := by rw [active, calls]
  by_cases some : log.lh.length > 0
  · rw [if_pos some]
    refine ⟨less, ⟨cached.clean, fun b data found => ?_⟩, image, ⟨empty, ?_, fun i _ early => absurd early (Nat.not_lt_zero i)⟩,
      fun _ => reads trivial⟩
    · simp only [lh]
      exact cached.pinned b data found
    · simp only [lh]
      exact unlogged
  · rw [if_neg some]
    have none : log.lh = [] := List.eq_nil_of_length_eq_zero (Nat.eq_zero_of_not_pos some)
    rw [← lh, none] at unlogged cached
    exact ⟨less, ⟨cached.clean, cached.pinned⟩, image,
      ⟨empty, none, funext fun b => unlogged b List.not_mem_nil⟩, fun _ => reads trivial⟩

/-- One turn of `write_log`'s loop. -/
theorem writeLog {tail b : Nat} (m : Matches area s store h) (home : ∀ b ∈ s.log.lh, area.Home b)
    (room : s.log.lh.length < area.size) (stage : s.stage = .writeLog tail) (logged : s.log.lh[tail]? = some b) :
    Matches area { s.copyBlock (area.start + tail + 1) b with stage := .writeLog (tail + 1) } store h := by
  obtain ⟨active, cached, image, agrees, reads⟩ := m
  rw [stage] at cached agrees reads
  obtain ⟨rfl, unlogged, slots⟩ := agrees
  obtain ⟨inside, rfl⟩ := List.getElem?_eq_some_iff.mp logged
  have source := reads trivial _ (home _ (List.getElem_mem inside))
  have written : (s.copyBlock (area.start + tail + 1) s.log.lh[tail]).Cached s.log.lh :=
    cached.copyBlock fun c member _ => member
  refine ⟨active, ⟨written.clean, written.pinned⟩, ?_, ⟨rfl, unlogged, fun i within early => ?_⟩, fun _ c here => ?_⟩
  · rw [State.copyBlock_disk]
    exact image.write_slot (by omega)
  · rw [State.copyBlock_disk, source]
    by_cases last : i = tail
    · subst last
      exact Function.update_self ..
    · rw [Function.update_of_ne (by omega)]
      exact slots i within (by omega)
  · have apart : c ≠ area.start + tail + 1 := here.ne_slot (by omega)
    have same := congrFun (State.copyBlock_contents s (area.start + tail + 1) s.log.lh[tail]) c
    rw [Function.update_of_ne apart, reads trivial c here] at same
    exact same

theorem wroteLog {tail : Nat} (m : Matches area s store h) (stage : s.stage = .writeLog tail)
    (all : s.log.lh.length ≤ tail) : Matches area { s with stage := .writeHead } store h := by
  obtain ⟨active, cached, image, agrees, reads⟩ := m
  rw [stage] at cached agrees reads
  obtain ⟨empty, unlogged, slots⟩ := agrees
  exact ⟨active, ⟨cached.clean, cached.pinned⟩, image,
    ⟨empty, unlogged, fun i inside => slots i inside (Nat.lt_of_lt_of_le inside all)⟩, reads⟩

/-- The write of the header is the commit. -/
theorem commit (m : Matches area s store h) (valid : ValidHeader area s.log.lh) (stage : s.stage = .writeHead) :
    Matches area { s.writeHead area with stage := .install 0 } (store.next .commit) s.log.lh := by
  obtain ⟨active, cached, image, agrees, reads⟩ := m
  rw [stage] at cached agrees reads
  obtain ⟨rfl, unlogged, slots⟩ := agrees
  have room := image.valid.room
  have written : (s.writeHead area).Cached s.log.lh := cached.writeHead fun c member _ => member
  have rest : ∀ b, area.Home b → b ∉ s.log.lh → s.disk b = store.current b := fun b home absent => by
    rw [image.rest b home List.not_mem_nil, unlogged b absent]
  have committed : Image area (s.writeHead area).disk s.log.lh store.current := by
    rw [State.writeHead_disk]
    exact .write_header valid slots rest
  refine ⟨active, ⟨written.clean, written.pinned⟩, committed, ⟨rfl, rfl, fun b home absent => ?_⟩, fun _ b home => ?_⟩
  · exact committed.rest b home absent
  · have same := congrFun (@State.writeHead_contents ι area s) b
    rw [Function.update_of_ne (home.ne_header room), reads trivial b home] at same
    exact same

theorem install {tail b : Nat} (m : Matches area s store h) (stage : s.stage = .install tail)
    (logged : s.log.lh[tail]? = some b) :
    Matches area { s.copyBlock b (area.start + tail + 1) with stage := .install (tail + 1) } store h := by
  obtain ⟨active, cached, image, agrees, reads⟩ := m
  rw [stage] at cached agrees reads
  obtain ⟨same, synced, done⟩ := agrees
  obtain ⟨image', done'⟩ := image.install_block done (same ▸ logged)
  obtain ⟨inside, here⟩ := List.getElem?_eq_some_iff.mp (same ▸ logged : h[tail]? = some b)
  have room := image.valid.room
  have unpinned : area.start + tail + 1 ∉ s.log.lh.drop tail := fun member =>
    (image.valid.home _ (same ▸ List.mem_of_mem_drop member)).ne_slot (by omega) rfl
  have source := cached.contents unpinned
  have written : (s.copyBlock b (area.start + tail + 1)).Cached (s.log.lh.drop (tail + 1)) :=
    cached.copyBlock fun c member other => mem_drop_succ logged member other
  refine ⟨active, ⟨written.clean, written.pinned⟩, ?_, ⟨same, synced, ?_⟩, fun _ c home => ?_⟩
  · rwa [State.copyBlock_disk, source]
  · rwa [State.copyBlock_disk, source]
  · have copied := congrFun (State.copyBlock_contents s b (area.start + tail + 1)) c
    rw [source, image.slots tail inside, here] at copied
    refine copied.trans ?_
    by_cases same : c = b
    · rw [same, Function.update_self, synced]
    · rw [Function.update_of_ne same, reads trivial c home]

theorem installed {tail : Nat} (m : Matches area s store h) (stage : s.stage = .install tail)
    (all : s.log.lh.length ≤ tail) :
    Matches area { s with log := { s.log with lh := [] }, stage := .clear } store h := by
  obtain ⟨active, cached, image, agrees, reads⟩ := m
  rw [stage] at cached agrees reads
  obtain ⟨same, synced, done⟩ := agrees
  rw [← same, List.drop_eq_nil_of_le all] at done
  rw [Stage.pins, List.drop_eq_nil_of_le all] at cached
  exact ⟨active, ⟨cached.clean, cached.pinned⟩, image,
    ⟨rfl, synced, fun b home => done b home List.not_mem_nil⟩, reads⟩

theorem release {proc : ι → Pos} (m : Matches area s store h) (stage : s.stage = .committed) :
    Matches area ⟨s.disk, s.cache, { s.log with committing := false }, .serving, proc⟩ store h := by
  obtain ⟨active, cached, image, agrees, reads⟩ := m
  rw [stage] at cached agrees reads
  obtain ⟨empty, none, synced⟩ := agrees
  exact ⟨active, ⟨cached.clean, fun b data found => absurd (cached.pinned b data found) List.not_mem_nil⟩, image,
    ⟨empty, fun b _ => congrFun synced b⟩, reads⟩

end Matches

/-- What a step does to the store. -/
def Does (store : Store Nat Block) : Option (Event Nat Block) → Store Nat Block
  | none => store
  | some event => store.next event

section Runs
variable [DecidableEq ι] [Fintype ι] {s t : State ι} {store : Store Nat Block} {event : Option (Event Nat Block)}

theorem Matches.step (fits : Fits area budget) (space : Space area budget s.log s.stage s.proc)
    (m : Matches area s store h) (step : Step area budget s event t) :
    (∀ e ∈ event, store.Allowed e) ∧ ∃ h', Matches area t (Does store event) h' := by
  cases step with
  | crash => exact ⟨fun e is => by cases is; trivial, h, m.crash⟩
  | readHead stage => exact ⟨nofun, h, m.readHead stage⟩
  | reinstall tail b stage logged => exact ⟨nofun, h, m.reinstall stage logged⟩
  | reinstalled tail stage done => exact ⟨nofun, h, m.reinstalled stage done⟩
  | reclear stage => exact ⟨nofun, [], m.reclear stage⟩
  | read b real =>
    exact ⟨nofun, h, m.active, m.cached.bread b, m.image, m.agrees, fun reads c home =>
      (State.contents_bread s b c).trans (m.reads reads c home)⟩
  | evict b data clean =>
    have kept := m.cached.evict b
    exact ⟨nofun, h, m.active, ⟨kept.clean, kept.pinned⟩, m.image, m.agrees, fun reads c home =>
      (State.contents_evict m.cached clean c).trans (m.reads reads c home)⟩
  | sleep i runs here full | check i touched b data runs here home room checked =>
    exact ⟨nofun, h, m.counters rfl rfl rfl rfl m.active rfl rfl⟩
  | begin i log runs here room =>
    obtain ⟨_, _, rfl⟩ := beginOp_some room
    exact ⟨fun e is => by cases is; trivial, h,
      m.counters rfl rfl rfl rfl (congrArg (· + 1) m.active) rfl rfl⟩
  | checkPanic i touched b msg runs here home room failed =>
    exact absurd failed (space.checks (i := i) fits runs (by rw [here]; rfl) msg)
  | append i touched b data runs here =>
    have busy := space.busy (i := i) (by rw [here]; rfl)
    have written : Matches area (s.logWrite b data) (store.next (.write b data)) h := m.append (space.serving runs busy.2)
    refine ⟨fun e is => ?_, h, written.counters rfl rfl rfl rfl written.active rfl rfl⟩
    cases is
    exact Nat.lt_of_lt_of_eq busy.1 m.active.symm
  | finish i touched log runs here ended =>
    have busy := space.busy (i := i) (by rw [here]; rfl)
    obtain ⟨_, _, rfl⟩ := endOp_more ended
    refine ⟨fun e is => ?_, h, m.counters rfl rfl rfl rfl (congrArg (· - 1) m.active) rfl rfl⟩
    cases is
    exact Nat.lt_of_lt_of_eq busy.1 m.active.symm
  | finishLast i touched log runs here ended =>
    have busy := space.busy (i := i) (by rw [here]; rfl)
    obtain ⟨_, _, rfl⟩ := endOp_last ended
    refine ⟨fun e is => ?_, h, m.finishLast (space.serving runs busy.2) rfl rfl⟩
    cases is
    exact Nat.lt_of_lt_of_eq busy.1 m.active.symm
  | finishPanic i touched msg runs here ended =>
    have busy := space.busy (i := i) (by rw [here]; rfl)
    rw [endOp_error ended] at busy
    exact absurd busy.2 nofun
  | writeLog tail b stage logged =>
    have room := space.room (by rw [stage]; trivial)
    have within := fits.2
    exact ⟨nofun, h, m.writeLog (space.home (by rw [stage]; trivial)) (by omega) stage logged⟩
  | wroteLog tail stage done => exact ⟨nofun, h, m.wroteLog stage done⟩
  | writeHead stage =>
    have runs : s.stage.Running := by rw [stage]; trivial
    have room := space.room runs
    have small := fits.1
    have within := fits.2
    have valid : ValidHeader area s.log.lh := ⟨space.once runs, space.home runs, by omega, by omega⟩
    refine ⟨fun e is => ?_, s.log.lh, m.commit valid stage⟩
    cases is
    exact m.active.trans (space.quiet (by rw [stage]; trivial))
  | install tail b stage logged => exact ⟨nofun, h, m.install stage logged⟩
  | installed tail stage done => exact ⟨nofun, h, m.installed stage done⟩
  | clear stage => exact ⟨nofun, [], m.clear stage⟩
  | committed i stage here => exact ⟨nofun, h, m.release stage⟩

theorem Run.matches {events : List (Event Nat Block)} (fits : Fits area budget)
    (valid : ValidHeader area (getHeader (disk area.start))) (run : Run area budget disk events s) :
    ∃ store h, Store.History (recovered area disk) events store ∧ Matches area s store h := by
  induction run with
  | start => exact ⟨_, _, .start, .boot (.of_valid valid)⟩
  | @next events s t event run step ih =>
    obtain ⟨store, h, history, m⟩ := ih
    obtain ⟨allowed, h', after⟩ := m.step fits (Space.run fits run) step
    cases event with
    | none => exact ⟨store, h', by rwa [Option.toList_none, List.append_nil], after⟩
    | some e => exact ⟨store.next e, h', history.next (allowed e rfl), after⟩

/-- The disk with its log is a store of atomic transactions: what recovery would leave is durable, reads return the
current contents, and once no system call is in progress everything is durable. -/
theorem log_refines {events : List (Event Nat Block)} (fits : Fits area budget)
    (valid : ValidHeader area (getHeader (disk area.start))) (run : Run area budget disk events s) :
    ∃ store, Store.History (recovered area disk) events store ∧
      (∀ b, area.Home b → recovered area s.disk b = store.durable b) ∧
      (s.stage.Reads → ∀ b, area.Home b → s.contents b = store.current b) ∧
      (s.stage = .serving → s.log.outstanding = 0 → store.durable = store.current) := by
  obtain ⟨store, h, history, m⟩ := run.matches fits valid
  refine ⟨store, history, fun b home => m.image.recovered home, m.reads, fun stage idle => ?_⟩
  have agrees := m.agrees
  rw [stage, (Space.run fits run).empty (by rw [stage]; exact idle)] at agrees
  exact funext fun b => (agrees.2 b List.not_mem_nil).symm

theorem zero_header : ValidHeader mkfsLog (getHeader ((fun _ _ => 0 : Nat → Block) mkfsLog.start)) := by
  rw [getHeader_empty (by decide)]
  exact ⟨List.nodup_nil, nofun, by decide, by decide⟩

/-- A system call has logged two blocks. -/
theorem Serves.two_logged : Serves mkfsLog 9 (fun _ _ => 0) 1 [40, 41]
    (Function.update (Function.update (fun _ : Bool => .outside) true (.inside [])) true (.inside [41, 40])) :=
  ((Serves.boot (by decide)).begins (i := true) rfl (by decide)).logs
    (Function.update_self ..) (by decide) (by simp [LogArea.Home, mkfsLog, FSSIZE, LOGSIZE, MAXOPBLOCKS])
    (by decide) (by decide) (by decide)

theorem log_refines_two : ∃ events, ∃ s : State Bool, Run mkfsLog 9 (fun _ _ => 0) events s ∧ s.log.lh = [40, 41] ∧
    ∃ store, Store.History (recovered mkfsLog fun _ _ => 0) events store ∧
      (∀ b, mkfsLog.Home b → recovered mkfsLog s.disk b = store.durable b) ∧
      (s.stage.Reads → ∀ b, mkfsLog.Home b → s.contents b = store.current b) ∧
      (s.stage = .serving → s.log.outstanding = 0 → store.durable = store.current) := by
  obtain ⟨events, s, run, -, log, -⟩ := Serves.two_logged
  exact ⟨events, s, run, by rw [log], log_refines (fits_mkfsLog (by decide)) zero_header run⟩

/-- After a crash at any point, and after any crashes during recovery, reads return what they returned at the last
commit, when no system call was in progress. -/
theorem recovery_atomic {past : List (Event Nat Block)} (fits : Fits area budget)
    (valid : ValidHeader area (getHeader (disk area.start))) (run : Run area budget disk (past ++ [.crash]) s)
    (reads : s.stage.Reads) :
    ∃ before after store, past = before ++ after ∧ Store.History (recovered area disk) before store ∧
      store.active = 0 ∧ Event.commit ∉ after ∧ (before = [] ∨ ∃ earlier, before = earlier ++ [.commit]) ∧
      ∀ b, area.Home b → s.contents b = store.current b := by
  obtain ⟨store, h, history, m⟩ := run.matches fits valid
  obtain ⟨crashed, lost, rfl⟩ := history.last
  obtain ⟨before, after, committed, split, whole, quiet, same, none, last⟩ := lost.durable_whole
  refine ⟨before, after, committed, split, whole, quiet, none, last, fun b home => ?_⟩
  rw [← same]
  exact m.reads reads b home

theorem recovery_atomic_two : ∃ past, ∃ s : State Bool, Run mkfsLog 9 (fun _ _ => 0) (past ++ [.crash]) s ∧
    s.stage.Reads ∧ ∃ before after store, past = before ++ after ∧
      Store.History (recovered mkfsLog fun _ _ => 0) before store ∧ store.active = 0 ∧ Event.commit ∉ after ∧
      (before = [] ∨ ∃ earlier, before = earlier ++ [.commit]) ∧
      ∀ b, mkfsLog.Home b → s.contents b = store.current b := by
  obtain ⟨past, s, run, stage, -, -⟩ := Serves.two_logged
  obtain ⟨store, h, -, m⟩ := run.matches (fits_mkfsLog (by decide)) zero_header
  have empty : h = [] := by
    have agrees := m.agrees
    rw [stage] at agrees
    exact agrees.1
  have header : getHeader (s.disk mkfsLog.start) = [] := m.image.header.trans empty
  have booted := (run.next (.crash s)).next (.readHead (.restart s.disk) rfl)
  have log := @State.readHead_log Bool mkfsLog (.restart s.disk)
  rw [show (State.restart (ι := Bool) s.disk).contents mkfsLog.start = s.disk mkfsLog.start from rfl, header] at log
  have cleared := booted.next (.reinstalled _ 0 rfl (by dsimp only; rw [log]; exact le_rfl))
  simp only [Option.toList_some, Option.toList_none, List.append_nil] at cleared
  exact ⟨past, _, cleared, trivial, recovery_atomic (fits_mkfsLog (by decide)) zero_header cleared trivial⟩

end Runs

end OsLabs.Fs
