import Btlib.Cache.Selects

namespace Btlib

variable [Build] {α β σ : Type} {h : Prog.Machine Op Res σ} {E : Op → σ → Prop} {strict : Prop}
  {R : σ → Finset Int × Option Int → Prop} {c c' : Ctx} {s : σ}

section Still

-- What does not touch the lock, whether it is held or not.
def Still (x : BT α) : Prop := ∀ c B, Guarded False x c B fun _ c' _ => Same c c'

variable {x : BT α} {f : α → BT β}

theorem Still.bind (hx : Still x) (hf : ∀ a, Still (f a)) : Still (x >>= f) := fun c B =>
  (hx c B).bind fun a c' B' h => (hf a c' B').mono fun _ _ _ h' => h.trans h'

theorem Still.ite {p : Prop} [Decidable p] {y : BT α} (hx : Still x) (hy : Still y) :
    Still (if p then x else y) := by
  split
  · exact hx
  · exact hy

@[simp] theorem still_pure (a : α) : Still (pure a : BT α) := fun c _ => guarded_pure.2 (.refl c)

@[simp] theorem still_get : Still (get : BT Ctx) := fun c _ => guarded_get.2 (.refl c)

@[simp] theorem still_hang : Still (hang : BT α) := fun _ _ _ => trivial

theorem still_ask (o : Op) : Still (ask o) := fun c _ _ =>
  ⟨by cases o <;> first | trivial | exact fun h => h.elim,fun _ _ => Same.refl c⟩

@[simp] theorem still_setLf (f : Lf → Lf) : Still (setLf f) := fun _ _ =>
  guarded_modify.2 ⟨rfl,rfl,rfl,rfl,rfl⟩

@[simp] theorem still_setStk (f : List Int → List Int) : Still (setStk f) := fun _ _ =>
  guarded_modify.2 ⟨rfl,rfl,rfl,rfl,rfl⟩

@[simp] theorem still_keyent (e : KeyEnt) : Still (modify fun c => { c with keyent := e } : BT Unit) :=
  fun _ _ => guarded_modify.2 ⟨rfl,rfl,rfl,rfl,rfl⟩

@[simp] theorem still_bterr (name : String) (code : Int) (arg : Arg) : Still (bterr name code arg) :=
  .bind (still_ask _) fun _ _ _ => guarded_modify.2 ⟨rfl,rfl,rfl,rfl,rfl⟩

@[simp] theorem still_brdblk (blk : Int) : Still (brdblk blk) :=
  .bind (still_ask _) fun _ => .ite (.bind (still_bterr _ _ _) fun _ => still_pure _) (still_pure _)

@[simp] theorem still_bgtinf (blk : Int) (type : Inf) : Still (bgtinf blk type) := by
  unfold bgtinf
  with_reducible repeat' first | refine .bind ?_ fun _ => ?_ | refine .ite ?_ ?_ | split
  all_goals simp

@[simp] theorem still_bpush (val : Int) : Still (bpush val) := by
  unfold bpush
  with_reducible repeat' first | refine .bind ?_ fun _ => ?_ | refine .ite ?_ ?_ | split
  all_goals simp

@[simp] theorem still_bpull : Still bpull := by
  unfold bpull
  with_reducible repeat' first | refine .bind ?_ fun _ => ?_ | refine .ite ?_ ?_ | split
  all_goals simp

@[simp] theorem still_pullParent : Still pullParent := by
  unfold pullParent
  with_reducible repeat' first | refine .bind ?_ fun _ => ?_ | refine .ite ?_ ?_ | split
  all_goals simp

@[simp] theorem still_bleafLoop (dir : Int) (n : Nat) (b : Block) : Still (bleafLoop dir n b) := by
  induction n generalizing b with
  | zero => exact still_hang
  | succ n ih =>
      unfold bleafLoop
      with_reducible repeat' first | refine .bind ?_ fun _ => ?_ | refine .ite ?_ ?_ | split
      all_goals simp [ih]

@[simp] theorem still_bleaf (dir : Int) : Still (bleaf dir) := by
  unfold bleaf
  with_reducible repeat' first | refine .bind ?_ fun _ => ?_ | refine .ite ?_ ?_ | split
  all_goals simp

@[simp] theorem still_bnxtbkLoop (n : Nat) (blk : Int) : Still (bnxtbkLoop n blk) := by
  induction n with
  | zero => exact still_hang
  | succ n ih =>
      unfold bnxtbkLoop setPos
      with_reducible repeat' first | refine .bind ?_ fun _ => ?_ | refine .ite ?_ ?_ | split
      all_goals simp [ih]

@[simp] theorem still_bnxtbk (blk : Int) : Still (bnxtbk blk) := by
  unfold bnxtbk bnxtbkStart bstkin
  with_reducible repeat' first | refine .bind ?_ fun _ => ?_ | refine .ite ?_ ?_ | split
  all_goals simp

@[simp] theorem still_bseldtLoop (n : Nat) (draddr sprem : Int) (buf : List Byte) :
    Still (bseldtLoop n draddr sprem buf) := by
  induction n generalizing draddr sprem buf with
  | zero => exact still_hang
  | succ n ih =>
      unfold bseldtLoop
      with_reducible repeat' first | refine .bind ?_ fun _ => ?_ | refine .ite ?_ ?_ | split
      all_goals simp [ih]

@[simp] theorem still_getdkey (draddr : Int) : Still (getdkey draddr) := by
  unfold getdkey bseldt
  with_reducible repeat' first | refine .bind ?_ fun _ => ?_ | refine .ite ?_ ?_ | split
  all_goals simp

@[simp] theorem still_spaceLoop (n : Nat) (blkno : Int) : Still (spaceLoop n blkno) := by
  induction n generalizing blkno with
  | zero => exact still_hang
  | succ n ih =>
      unfold spaceLoop
      with_reducible repeat' first | refine .bind ?_ fun _ => ?_ | refine .ite ?_ ?_ | split
      all_goals simp [ih]

@[simp] theorem still_btdispdupsLoop (n : Nat) (draddr mx : Int) : Still (btdispdupsLoop n draddr mx) := by
  induction n generalizing draddr with
  | zero => exact still_hang
  | succ n ih =>
      unfold btdispdupsLoop
      with_reducible repeat' first | refine .bind ?_ fun _ => ?_ | refine .ite ?_ ?_ | split
      all_goals simp [ih]

@[simp] theorem still_debugBlock (blkno : Int) : Still (debugBlock blkno) := by
  unfold debugBlock btdispdups
  with_reducible repeat' first | refine .bind ?_ fun _ => ?_ | refine .ite ?_ ?_ | split
  all_goals simp

end Still

section Checker

variable {k : Nat}

@[simp] theorem marksKept_btcntdups (hk : 0 < k) (n : Nat) (draddr count : Int) :
    MarksKept strict k (btcntdups n draddr count) := by
  induction n generalizing draddr count with
  | zero => exact .hang
  | succ n ih =>
      unfold btcntdups
      with_reducible repeat' first | refine .bind ?_ fun _ => ?_ | refine .ite ?_ ?_ | split
      all_goals simp [hk, ih]

@[simp] theorem marksKept_btcntkeysLoop (hk : 0 < k) (blk : Int) (n : Nat) (i tcnt : Int) :
    MarksKept strict k (btcntkeysLoop blk n i tcnt) := by
  induction n generalizing i tcnt with
  | zero => exact .pure _
  | succ n ih =>
      unfold btcntkeysLoop
      with_reducible repeat' first | refine .bind ?_ fun _ => ?_ | refine .ite ?_ ?_ | split
      all_goals simp [hk, ih]

@[simp] theorem marksKept_btkeysBlock (hk : 0 < k) (blkno depth : Int) (r : Keys) :
    MarksKept strict k (btkeysBlock blkno depth r) := by
  unfold btkeysBlock btcntkeys
  with_reducible repeat' first | refine .bind ?_ fun _ => ?_ | refine .ite ?_ ?_ | split
  all_goals simp [hk]

@[simp] theorem marksKept_btkeysLoop (hk : 0 < k) (n : Nat) (blkno : Int) (r : Keys) :
    MarksKept strict k (btkeysLoop n blkno r) := by
  induction n generalizing blkno r with
  | zero => exact .hang
  | succ n ih =>
      unfold btkeysLoop
      with_reducible repeat' first | refine .bind ?_ fun _ => ?_ | refine .ite ?_ ?_ | split
      all_goals simp [hk, ih]

@[simp] theorem marksKept_spaceLoop (hk : 0 < k) (n : Nat) (blkno : Int) :
    MarksKept strict k (spaceLoop n blkno) := by
  induction n generalizing blkno with
  | zero => exact .hang
  | succ n ih =>
      unfold spaceLoop
      with_reducible repeat' first | refine .bind ?_ fun _ => ?_ | refine .ite ?_ ?_ | split
      all_goals simp [hk, ih]

@[simp] theorem marksKept_btdispdupsLoop (hk : 0 < k) (n : Nat) (draddr mx : Int) :
    MarksKept strict k (btdispdupsLoop n draddr mx) := by
  induction n generalizing draddr with
  | zero => exact .hang
  | succ n ih =>
      unfold btdispdupsLoop
      with_reducible repeat' first | refine .bind ?_ fun _ => ?_ | refine .ite ?_ ?_ | split
      all_goals simp [hk, ih]

@[simp] theorem marksKept_debugBlock (hk : 0 < k) (blkno : Int) : MarksKept strict k (debugBlock blkno) := by
  unfold debugBlock btdispdups
  with_reducible repeat' first | refine .bind ?_ fun _ => ?_ | refine .ite ?_ ?_ | split
  all_goals simp [hk]

end Checker

end Btlib
