import OsLabs.Xv6.EagerHeap
import OsLabs.Xv6.ExecSpace

namespace OsLabs.Xv6
open Command

section Arguments
variable (word byte : Nat → Nat) (sz : Nat)

/-- `fetchint`; `word` is the user memory as the kernel reads it, none stands for -1. -/
def fetchint (addr : Nat) : Option Nat :=
  if sz ≤ addr ∨ sz < (addr + 4) % 2 ^ 32 then none else some (word addr % 2 ^ 32)

/-- The loop of `fetchstr`, with the number of bytes left before the break. -/
def strLoop : Nat → Nat → Option Nat
  | 0, _ => none
  | left + 1, s => if byte s = 0 then some s else strLoop left (s + 1)

/-- `fetchstr` returns the length of the string. -/
def fetchstr (addr : Nat) : Option Nat :=
  if sz ≤ addr then none else (strLoop byte (sz - addr) addr).map (· - addr)

def argint (esp n : Nat) : Option Int := (fetchint word sz ((esp + 4 + 4 * n) % 2 ^ 32)).map asInt

/-- `argptr` returns the pointer. -/
def argptr (esp n : Nat) (size : Int) : Option Nat :=
  match argint word sz esp n with
  | none => none
  | some i =>
    if size < 0 ∨ sz ≤ (i % 2 ^ 32).toNat ∨ sz < addSigned (i % 2 ^ 32).toNat size then none
    else some (i % 2 ^ 32).toNat

end Arguments

/-- A call of `sbrk`: the user stack pointer and the user memory at the time. -/
structure SbrkCall where
  esp : Nat
  word : Nat → Nat

/-- `sys_sbrk` of xv6_new_7. -/
def sysSbrkCall (ld : Linker) (p : Proc) (c : SbrkCall) : Kernel (Int × Proc) :=
  match argint c.word p.sz c.esp 0 with
  | none => pure (-1, p)
  | some n => sysSbrk (lazyPaging ld) p n

/-- What `fetchint`, `fetchstr` and `argptr` accept lies below `KERNBASE`. -/
structure Guarded (sz : Nat) : Prop where
  int : ∀ word addr x, fetchint word sz addr = some x → addr + 4 ≤ KERNBASE
  str : ∀ byte addr length, fetchstr byte sz addr = some length → addr + length < KERNBASE
  ptr : ∀ word esp n size a, size < 2 ^ 31 → argptr word sz esp n size = some a → a < KERNBASE ∧ a + size ≤ KERNBASE

/-- The promise about the break over a sequence of `sbrk` calls. -/
def BreakKept (ld : Linker) : Proc → List SbrkCall → Prop
  | _, [] => True
  | p, c :: cs => ∀ s r q t, sysSbrkCall ld p c s = .ok (r, q) t →
    q.sz ≤ KERNBASE ∧ Guarded q.sz ∧
    (∀ n, argint c.word p.sz c.esp 0 = some n → p.sz + n < 0 ∨ KERNBASE < p.sz + n → r = -1 ∧ q.sz = p.sz) ∧
    BreakKept ld q cs

/-- No call whose argument can be fetched moves the break out of user space. -/
def StaysInside : Nat → List SbrkCall → Prop
  | _, [] => True
  | sz, c :: cs =>
    match argint c.word sz c.esp 0 with
    | none => StaysInside sz cs
    | some n => 0 ≤ sz + n ∧ sz + n ≤ KERNBASE ∧ StaysInside (sz + n).toNat cs

theorem strLoop_bound {byte : Nat → Nat} (left : Nat) :
    ∀ {s a : Nat}, strLoop byte left s = some a → s ≤ a ∧ a < s + left := by
  induction left with
  | zero =>
    intro s a found
    cases found
  | succ left ih =>
    intro s a found
    unfold strLoop at found
    by_cases zero : byte s = 0
    · rw [if_pos zero] at found
      obtain rfl := Option.some.inj found
      omega
    · rw [if_neg zero] at found
      have bound := ih found
      omega

/-- With the break in user space the three checks are right. -/
theorem guarded_of_low {sz : Nat} (low : sz ≤ KERNBASE) : Guarded sz := by
  simp only [KERNBASE] at low
  refine ⟨fun word addr x accepted => ?_, fun byte addr length accepted => ?_,
    fun word esp n size a int accepted => ?_⟩
  · unfold fetchint at accepted
    by_cases bad : sz ≤ addr ∨ sz < (addr + 4) % 2 ^ 32
    · rw [if_pos bad] at accepted
      cases accepted
    · simp only [KERNBASE]
      omega
  · unfold fetchstr at accepted
    by_cases bad : sz ≤ addr
    · rw [if_pos bad] at accepted
      cases accepted
    · rw [if_neg bad] at accepted
      obtain ⟨a, found, rfl⟩ := Option.map_eq_some_iff.mp accepted
      have bound := strLoop_bound _ found
      simp only [KERNBASE]
      omega
  · unfold argptr at accepted
    cases fetched : argint word sz esp n with
    | none =>
      rw [fetched] at accepted
      cases accepted
    | some i =>
      rw [fetched] at accepted
      dsimp only at accepted
      generalize (i % 2 ^ 32).toNat = u at accepted
      by_cases bad : size < 0 ∨ sz ≤ u ∨ sz < addSigned u size
      · rw [if_pos bad] at accepted
        cases accepted
      · rw [if_neg bad] at accepted
        obtain rfl := Option.some.inj accepted
        rw [not_or, not_or] at bad
        have sum : (addSigned u size : Int) = u + size := addSigned_exact (by omega) (by omega)
        simp only [KERNBASE]
        omega

theorem sysSbrkCall_refused (ld : Linker) {p : Proc} {c : SbrkCall} (none : argint c.word p.sz c.esp 0 = none) :
    sysSbrkCall ld p c = pure (-1, p) := by
  unfold sysSbrkCall
  rw [none]

theorem sysSbrkCall_moved (ld : Linker) {p : Proc} {c : SbrkCall} {n : Int}
    (some : argint c.word p.sz c.esp 0 = some n) :
    sysSbrkCall ld p c = pure (asInt p.sz, { p with sz := addSigned p.sz n }) := by
  unfold sysSbrkCall
  rw [some]
  rfl

/-- The result of a call does not depend on the machine. -/
theorem breakKept_cons (ld : Linker) {p q : Proc} {c : SbrkCall} {cs : List SbrkCall} {r : Int}
    (result : sysSbrkCall ld p c = pure (r, q)) : BreakKept ld p (c :: cs) ↔ q.sz ≤ KERNBASE ∧ Guarded q.sz ∧
      (∀ n, argint c.word p.sz c.esp 0 = some n → p.sz + n < 0 ∨ KERNBASE < p.sz + n → r = -1 ∧ q.sz = p.sz) ∧
      BreakKept ld q cs := by
  rw [BreakKept, result]
  constructor
  · intro kept
    exact kept ⟨fun _ _ => 0, 0, 0, false⟩ r q _ rfl
  · rintro kept s r' q' t run
    obtain ⟨same, _⟩ := EStateM.Result.ok.inj run
    obtain ⟨rfl, rfl⟩ := Prod.mk.inj same
    exact kept

/-- The break stays in user space exactly when no call moves it out: `growproc` itself
refuses nothing. -/
theorem breakKept_iff (ld : Linker) (p : Proc) (calls : List SbrkCall) (low : p.sz ≤ KERNBASE) :
    BreakKept ld p calls ↔ StaysInside p.sz calls := by
  induction calls generalizing p with
  | nil => exact ⟨fun _ => trivial, fun _ => trivial⟩
  | cons c cs ih =>
    unfold StaysInside
    cases fetched : argint c.word p.sz c.esp 0 with
    | none =>
      rw [breakKept_cons ld (sysSbrkCall_refused ld fetched), ih p low]
      refine ⟨fun kept => kept.2.2.2, fun stays => ⟨low, guarded_of_low low, fun n some => ?_, stays⟩⟩
      rw [fetched] at some
      cases some
    | some n =>
      rw [breakKept_cons ld (sysSbrkCall_moved ld fetched)]
      dsimp only
      by_cases inside : 0 ≤ p.sz + n ∧ p.sz + n ≤ KERNBASE
      · have sum := addSigned_exact inside.1 (lt_of_le_of_lt inside.2 (by decide))
        have moved : addSigned p.sz n = (p.sz + n).toNat := by omega
        have lowAfter : addSigned p.sz n ≤ KERNBASE := by omega
        have onward := ih { p with sz := addSigned p.sz n } lowAfter
        rw [← moved, onward]
        refine ⟨fun kept => ⟨inside.1, inside.2, kept.2.2.2⟩, fun stays => ⟨lowAfter, guarded_of_low lowAfter,
          fun m some out => ?_, stays.2.2⟩⟩
        rw [fetched] at some
        obtain rfl := Option.some.inj some
        omega
      · refine ⟨fun kept => ?_, fun stays => absurd ⟨stays.1, stays.2.1⟩ inside⟩
        exact absurd (kept.2.2.1 n fetched (by omega)).1 (asInt_ne low)

/-- A program of three pages calls `sbrk(-12289)`: the break wraps around to the last byte
of the address space. -/
theorem breakKept_wraps : ¬ ∀ (ld : Linker) (p : Proc) (calls : List SbrkCall), p.sz ≤ KERNBASE → BreakKept ld p calls := by
  intro promise
  have kept := promise tinyLinker tinyProc [⟨8192, fun _ => 2 ^ 32 - 12289⟩] (by decide)
  rw [breakKept_cons tinyLinker (sysSbrkCall_moved tinyLinker (n := -12289) (by decide))] at kept
  exact absurd kept.1 (by decide)

theorem breakKept_iff_tiny : BreakKept tinyLinker tinyProc [⟨8192, fun _ => 4096⟩] ↔
    StaysInside tinyProc.sz [⟨8192, fun _ => 4096⟩] :=
  breakKept_iff tinyLinker tinyProc [⟨8192, fun _ => 4096⟩] (by decide)

end OsLabs.Xv6
