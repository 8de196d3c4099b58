import OsLabs.Xv6.Process

namespace OsLabs.Xv6
open Command

/-- Memory has run out at some time. No command of the kernel makes this undone. -/
def Exhausted (s : Machine) : Prop := s.exhausted = true

section Primitives

theorem load_exhausted (a : Nat) : Always Exhausted (load a) := by
  intro s start
  unfold Yields load
  cases frameAt s a <;> exact start

theorem store_exhausted (a x : Nat) : Always Exhausted (store a x) := by
  intro s start
  unfold Yields store
  cases frameAt s a <;> exact start

theorem memset_exhausted (a c : Nat) : Always Exhausted (memset a c) := by
  intro s start
  unfold Yields memset
  cases frameAt s a <;> exact start

theorem V2P_exhausted (a : Nat) : Always Exhausted (V2P a) :=
  always_ite (fun _ => always_throw) fun _ => always_pure

theorem P2V_exhausted (a : Nat) : Always Exhausted (P2V a) :=
  always_ite (fun _ => always_throw) fun _ => always_pure

theorem kfree_exhausted (ld : Linker) (v : Nat) : Always Exhausted (kfree ld v) := by
  refine always_ite (fun _ => always_throw) fun _ => always_bind (V2P_exhausted v) fun pa => ?_
  refine always_ite (fun _ => always_throw) fun _ => always_bind (memset_exhausted v 1) fun _ =>
    always_get fun s _ => ?_
  exact always_bind (store_exhausted v _) fun _ => always_modify fun _ start => start

theorem kalloc_exhausted : Always Exhausted kalloc := by
  refine always_get fun s _ => always_ite (fun _ => ?_) fun _ => ?_
  · exact always_bind (always_modify fun _ _ => rfl) fun _ => always_pure
  · exact always_bind (load_exhausted _) fun _ => always_bind (always_modify fun _ start => start) fun _ =>
      always_pure

theorem walkpgdir_exhausted (pgdir va : Nat) (alloc : Bool) : Always Exhausted (walkpgdir pgdir va alloc) := by
  refine always_bind (load_exhausted _) fun entry => always_ite (fun _ => ?_) fun _ => ?_
  · exact always_bind (P2V_exhausted _) fun _ => always_pure
  · refine always_ite (fun _ => always_pure) fun _ => always_bind kalloc_exhausted fun pgtab => ?_
    refine always_ite (fun _ => always_pure) fun _ => always_bind (memset_exhausted pgtab 0) fun _ => ?_
    exact always_bind (V2P_exhausted pgtab) fun _ => always_bind (store_exhausted _ _) fun _ => always_pure

end Primitives

section Mapping
variable (pgdir perm : Nat)

theorem mapPage_exhausted (a pa : Nat) : Always Exhausted (mapPage pgdir a pa perm) := by
  refine always_bind (walkpgdir_exhausted pgdir a true) fun pte => always_ite (fun _ => always_pure) fun _ => ?_
  refine always_bind (load_exhausted pte) fun entry => always_ite (fun _ => always_throw) fun _ => ?_
  exact always_bind (store_exhausted pte _) fun _ => always_pure

theorem mapLoop_exhausted (left : Nat) : ∀ a pa, Always Exhausted (mapLoop pgdir perm left a pa) := by
  induction left with
  | zero =>
    intro a pa
    exact always_bind (mapPage_exhausted pgdir perm a pa) fun _ =>
      always_ite (fun _ => always_pure) fun _ => always_pure
  | succ left ih =>
    intro a pa
    exact always_bind (mapPage_exhausted pgdir perm a pa) fun _ => always_ite (fun _ => ih _ _) fun _ => always_pure

theorem mappages_exhausted (va size pa : Nat) : Always Exhausted (mappages pgdir va size pa perm) :=
  mapLoop_exhausted pgdir perm _ _ _

end Mapping

section Heap
variable (ld : Linker) (pgdir oldsz newsz : Nat)

theorem deallocLoop_exhausted (fuel : Nat) : ∀ a, Always Exhausted (deallocLoop ld pgdir oldsz fuel a) := by
  induction fuel with
  | zero => exact fun a => always_ite (fun _ => always_throw) fun _ => always_pure
  | succ fuel ih =>
    intro a
    refine always_ite (fun _ => ?_) fun _ => always_pure
    refine always_bind (walkpgdir_exhausted pgdir a false) fun pte => always_ite (fun _ => ih _) fun _ => ?_
    refine always_bind (load_exhausted pte) fun entry => always_ite (fun _ => ?_) fun _ => ih _
    refine always_ite (fun _ => always_throw) fun _ => always_bind (P2V_exhausted _) fun v => ?_
    exact always_bind (kfree_exhausted ld v) fun _ => always_bind (store_exhausted pte 0) fun _ => ih _

theorem deallocuvm_exhausted : Always Exhausted (deallocuvm ld pgdir oldsz newsz) :=
  always_ite (fun _ => always_pure) fun _ => always_bind (deallocLoop_exhausted ld pgdir oldsz _ _) fun _ =>
    always_pure

theorem allocLoop_exhausted (fuel : Nat) : ∀ a, Always Exhausted (allocLoop ld pgdir oldsz newsz fuel a) := by
  induction fuel with
  | zero => exact fun a => always_ite (fun _ => always_throw) fun _ => always_pure
  | succ fuel ih =>
    intro a
    refine always_ite (fun _ => ?_) fun _ => always_pure
    refine always_bind kalloc_exhausted fun mem => always_ite (fun _ => ?_) fun _ => ?_
    · exact always_bind (deallocuvm_exhausted ld pgdir newsz oldsz) fun _ => always_pure
    · refine always_bind (memset_exhausted mem 0) fun _ => always_bind (V2P_exhausted mem) fun pa => ?_
      refine always_bind (mappages_exhausted pgdir _ a 4096 pa) fun failed => always_ite (fun _ => ?_) fun _ => ih _
      exact always_bind (deallocuvm_exhausted ld pgdir newsz oldsz) fun _ =>
        always_bind (kfree_exhausted ld mem) fun _ => always_pure

theorem allocuvm_exhausted : Always Exhausted (allocuvm ld pgdir oldsz newsz) :=
  always_ite (fun _ => always_pure) fun _ => always_ite (fun _ => always_pure) fun _ =>
    allocLoop_exhausted ld pgdir oldsz newsz _ _

end Heap

section Programs
variable (ld : Linker)

theorem switchuvm_exhausted (p : Proc) : Always Exhausted (switchuvm p) :=
  always_ite (fun _ => always_throw) fun _ => always_bind (V2P_exhausted _) fun _ =>
    always_modify fun _ start => start

theorem growprocEager_exhausted (p : Proc) (n : Int) : Always Exhausted (growprocEager ld p n) := by
  refine always_ite (fun _ => ?_) fun _ => always_ite (fun _ => ?_) fun _ => ?_
  · refine always_bind (allocuvm_exhausted ld _ _ _) fun sz => always_ite (fun _ => always_pure) fun _ => ?_
    exact always_bind (switchuvm_exhausted _) fun _ => always_pure
  · refine always_bind (deallocuvm_exhausted ld _ _ _) fun sz => always_ite (fun _ => always_pure) fun _ => ?_
    exact always_bind (switchuvm_exhausted _) fun _ => always_pure
  · exact always_bind (switchuvm_exhausted _) fun _ => always_pure

theorem trapLazy_exhausted (p : Proc) (cr2 : Nat) : Always Exhausted (trapLazy ld p cr2) := by
  refine always_bind (walkpgdir_exhausted _ _ true) fun pte => ?_
  have reading : Always Exhausted (untouched p (PGROUNDDOWN cr2) pte) :=
    always_ite (fun _ => always_bind (load_exhausted pte) fun _ => always_pure) fun _ => always_pure
  refine always_bind reading fun allocate => always_ite (fun _ => ?_) fun _ => always_pure
  refine always_bind kalloc_exhausted fun mem => always_bind (memset_exhausted mem 0) fun _ => ?_
  refine always_bind (V2P_exhausted mem) fun pa => always_bind (mappages_exhausted _ _ _ _ _) fun failed => ?_
  refine always_ite (fun _ => always_bind (kfree_exhausted ld mem) fun _ => ?_) fun _ => ?_
  all_goals exact always_bind (switchuvm_exhausted p) fun _ => always_pure

/-- Both kernels keep the ghost flag. -/
structure Paging.Sticky (k : Paging) : Prop where
  growproc : ∀ p n, Always Exhausted (k.growproc p n)
  trap : ∀ p a, Always Exhausted (k.trap p a)

theorem lazyPaging_sticky : (lazyPaging ld).Sticky := ⟨fun _ _ => always_pure, trapLazy_exhausted ld⟩

theorem eagerPaging_sticky : (eagerPaging ld).Sticky := ⟨growprocEager_exhausted ld, fun _ _ => always_pure⟩

variable {k : Paging} (sticky : k.Sticky)
include sticky

theorem userAccess_exhausted (op : Access) (a tries : Nat) : ∀ p, Always Exhausted (userAccess k op a tries p) := by
  induction tries with
  | zero => exact fun p => always_throw
  | succ tries ih =>
    intro p
    refine always_get fun s start => ?_
    cases userFrame s op a with
    | some f =>
      refine always_bind (always_set ?_) fun _ => always_pure
      cases op <;> exact start
    | none =>
      exact always_bind (sticky.trap p a) fun q => always_ite (fun _ => always_pure) fun _ => ih q

theorem userStep_exhausted (p : Proc) (op : UserOp) : Always Exhausted (userStep k p op) := by
  cases op with
  | sbrk n =>
    refine always_bind (always_bind (sticky.growproc p n) fun r => ?_) fun r => always_pure
    exact always_ite (fun _ => always_pure) fun _ => always_pure
  | access op a => exact userAccess_exhausted sticky op a 2 p

theorem userRun_exhausted (ops : List UserOp) : ∀ p, Always Exhausted (userRun k p ops) := by
  induction ops with
  | nil => exact fun p => always_pure
  | cons op ops ih =>
    intro p
    refine always_bind (userStep_exhausted sticky p op) fun r => always_ite (fun _ => always_pure) fun _ => ?_
    exact always_bind (ih r.2) fun _ => always_pure

end Programs

end OsLabs.Xv6
