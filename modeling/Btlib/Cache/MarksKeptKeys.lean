import Btlib.Cache.MarksKeptData

namespace Btlib

variable [Build] {strict : Prop} {k : Nat} {α β : Type} {c c' : Ctx} {B : Finset Int}

section Lock

@[simp] theorem marksKept_brdsup (hk : 0 < k) : MarksKept strict k brdsup := by
  unfold brdsup
  with_reducible repeat' first | refine .bind ?_ fun _ => ?_ | refine .ite ?_ ?_ | split
  all_goals simp [hk]

@[simp] theorem marksKept_bwrsup (hk : 0 < k) : MarksKept strict k bwrsup := by
  unfold bwrsup
  with_reducible repeat' first | refine .bind ?_ fun _ => ?_ | refine .ite ?_ ?_ | split
  all_goals simp [hk]

theorem marksKept_initcntrl : MarksKept strict k (ask .initcntrl) := fun c B _ _ =>
  guarded_ask ⟨trivial,fun _ _ => ⟨Same.refl c,fun _ => Finset.empty_subset B⟩⟩

theorem marksKept_wrall : MarksKept strict k (ask .wrall) := .ask (fun _ _ => trivial) fun _ _ => rfl

@[simp] theorem marksKept_btsync (hk : 0 < k) : MarksKept strict k btsync := by
  unfold btsync
  with_reducible repeat' first | refine .bind ?_ fun _ => ?_ | refine .ite ?_ ?_ | split
  all_goals first | exact marksKept_wrall | exact marksKept_initcntrl | simp [hk]

-- The handle with `n` more locks of its own, if it is shared.
def Ctx.relock (c : Ctx) (n : Int) : Ctx :=
  { c with lckcnt := if c.shared then c.lckcnt + n else c.lckcnt }

omit [Build] in
theorem Held.relock (h : Held c) : Held (c.relock 1) := by
  intro hs
  have := h hs
  have hs : c.shared = true := hs
  simp only [Ctx.relock, hs, if_true]
  omega

omit [Build] in
theorem Held.one_lt (h : Held c) (hs : Same (c.relock 1) c') : c'.shared = true → 1 < c'.lckcnt := by
  intro hc
  have hsh : c.shared = true := hs.shared.symm.trans hc
  have := h hsh
  rw [hs.lckcnt]
  simp only [Ctx.relock, hsh, if_true]
  omega

omit [Build] in
theorem Same.relock (h : Same (c.relock 1) c') : Same c (c'.relock (-1)) := by
  refine ⟨h.isopen,h.shared,?_,h.root,h.mode⟩
  have hsh : c'.shared = c.shared := h.shared
  have hl := h.lckcnt
  simp only [Ctx.relock, hsh] at hl ⊢
  split at hl <;> simp_all

theorem guarded_block (h : 0 < c.lckcnt) :
    Guarded strict block c B fun r c' B' => r = true ∧ c' = { c with lckcnt := c.lckcnt + 1 } ∧ B' = B := by
  refine guarded_bind (guarded_get.2 ?_)
  rw [if_pos h]
  exact guarded_bind (guarded_modify.2 (guarded_pure.2 ⟨rfl,rfl,rfl⟩))

theorem guarded_enter (fn : String) (hc : Held c) :
    Guarded strict (enter fn) c B fun r c' B' => r = true ∧ c' = c.relock 1 ∧ B' = B := by
  refine guarded_bind (guarded_get.2 ?_)
  rw [guarded_ite, Ctx.relock]
  split
  · rename_i hs
    refine (guarded_block (hc hs)).bind fun r c' B' h => ?_
    obtain ⟨rfl,rfl,rfl⟩ := h
    exact guarded_pure.2 ⟨rfl,rfl,rfl⟩
  · rename_i hs
    exact guarded_pure.2 ⟨rfl,rfl,rfl⟩

theorem guarded_leave (hc : c.shared = true → 1 < c.lckcnt) :
    Guarded strict leave c B fun _ c' B' => c' = c.relock (-1) ∧ B' = B := by
  refine guarded_bind (guarded_get.2 ?_)
  rw [guarded_ite, Ctx.relock]
  split
  · rename_i hs
    refine guarded_bind (guarded_get.2 ?_)
    rw [if_pos (hc hs)]
    exact guarded_modify.2 ⟨rfl,rfl⟩
  · rename_i hs
    exact guarded_pure.2 ⟨rfl,rfl⟩

-- Between `enter` and `leave` a shared handle holds one lock more.
theorem guarded_within (fn : String) (busy : α) {body : BT α} (hbody : MarksKept strict k body)
    (hc : Held c) (hB : Spare strict k B) : Guarded strict (within fn busy body) c B fun _ c' B' =>
      Same (c.relock 1) c' ∧ Fewer strict B B' := by
  refine (guarded_enter fn hc).bind fun r c' B' h => ?_
  obtain ⟨rfl,rfl,rfl⟩ := h
  exact hbody _ _ hc.relock hB

theorem guarded_within_leave (fn : String) (busy : α) {body : BT α} {f : α → BT β}
    (hbody : MarksKept strict k body) (hf : ∀ a, MarksKept strict k (f a)) (hc : Held c) (hB : Spare strict k B) :
    Guarded strict (do let r ← within fn busy body; leave; f r) c B fun _ c' B' =>
      Same c c' ∧ Fewer strict B B' := by
  refine (guarded_within fn busy hbody hc hB).bind fun r c1 B1 h1 => ?_
  refine (guarded_leave (hc.one_lt h1.1)).bind fun _ c2 B2 h2 => ?_
  obtain ⟨rfl,rfl⟩ := h2
  have hs := h1.1.relock
  exact (hf r _ _ (hc.same hs) (hB.fewer h1.2)).mono fun _ _ _ h => ⟨hs.trans h.1,h1.2.trans h.2⟩

theorem marksKept_locked (fn : String) (busy : α) {body : BT α} (hbody : MarksKept strict k body) :
    MarksKept strict k (locked fn busy body) := fun _ _ hc hB =>
  guarded_within_leave fn busy hbody (fun r => .pure r) hc hB

theorem guarded_api {fn : String} {bad : Int → α} {body : BT α} {Q : α → Ctx → Finset Int → Prop}
    (hbad : ∀ a c', c.isopen = false → Same c c' → Q a c' B)
    (hbody : c.isopen = true → Guarded strict body { c with err := ⟨"", 0, .none⟩ } B Q) :
    Guarded strict (api fn bad body) c B Q := by
  refine guarded_bind (guarded_modify.2 (guarded_bind (guarded_bind (guarded_get.2 ?_))))
  rw [guarded_ite]
  split
  · rename_i ho
    refine guarded_pure.2 ?_
    rw [if_neg (not_not.2 rfl)]
    exact hbody ho
  · rename_i ho
    refine guarded_bind (guarded_bind (guarded_ask ⟨trivial,fun _ _ => guarded_modify.2 ?_⟩))
    refine guarded_pure.2 ?_
    rw [if_pos (show QBADAP ≠ 0 by decide)]
    exact guarded_pure.2 (hbad _ _ (Bool.not_eq_true _ ▸ ho) ⟨rfl,rfl,rfl,rfl,rfl⟩)

theorem marksKept_api (fn : String) (bad : Int → α) {body : BT α} (hbody : MarksKept strict k body) :
    MarksKept strict k (api fn bad body) := by
  unfold api bvalap
  with_reducible repeat' first | refine .bind ?_ fun _ => ?_ | refine .ite ?_ ?_ | split
  all_goals first | exact hbody | simp

theorem marksKept_withErr {body : BT α} (hbody : MarksKept strict k body) : MarksKept strict k (withErr body) :=
  .bind hbody fun _ => .bind marksKept_btgerr fun _ => .pure _

theorem marksKept_errOf {body : BT Unit} (hbody : MarksKept strict k body) : MarksKept strict k (errOf body) :=
  .bind hbody fun _ => marksKept_btgerr

end Lock

section Keys

@[simp] theorem marksKept_pullParent : MarksKept strict k pullParent := by
  unfold pullParent
  with_reducible repeat' first | refine .bind ?_ fun _ => ?_ | refine .ite ?_ ?_ | split
  all_goals simp []

@[simp] theorem marksKept_bfndkyLoop (hk : 1 < k) (n : Nat) (cblk : Int) (o : Srh) :
    MarksKept strict k (bfndkyLoop n cblk o) := by
  induction n generalizing cblk o with
  | zero => exact .hang
  | succ n ih =>
      unfold bfndkyLoop
      with_reducible repeat' first | refine .bind ?_ fun _ => ?_ | refine .ite ?_ ?_ | split
      all_goals simp [hk, ih, Nat.zero_lt_of_lt hk]

@[simp] theorem marksKept_bfndkySearch (hk : 1 < k) (key : Key) : MarksKept strict k (bfndkySearch key) := by
  unfold bfndkySearch
  with_reducible repeat' first | refine .bind ?_ fun _ => ?_ | refine .ite ?_ ?_ | split
  all_goals simp [hk]

@[simp] theorem marksKept_bfndky (hk : 1 < k) (key : Key) : MarksKept strict k (bfndky key) := by
  refine marksKept_api _ _ (.bind (marksKept_locked _ _ (marksKept_bfndkySearch hk key)) fun _ => ?_)
  with_reducible repeat' first | refine .bind ?_ fun _ => ?_ | refine .ite ?_ ?_ | split
  all_goals simp

@[simp] theorem marksKept_binskyPut (hk : 0 < k) (key : Key) (val : Int) (found : Bool) :
    MarksKept strict k (binskyPut key val found) := by
  unfold binskyPut
  with_reducible repeat' first | refine .bind ?_ fun _ => ?_ | refine .ite ?_ ?_ | split
  all_goals simp [hk]

@[simp] theorem marksKept_binsky (hk : 1 < k) (key : Key) (val : Int) : MarksKept strict k (binsky key val) := by
  refine marksKept_api _ _ (marksKept_errOf (marksKept_locked _ _ ?_))
  with_reducible repeat' first | refine .bind ?_ fun _ => ?_ | refine .ite ?_ ?_ | split
  all_goals simp [hk, Nat.zero_lt_of_lt hk]

@[simp] theorem marksKept_bmodky (hk : 0 < k) (blk loc val : Int) :
    MarksKept strict k (bmodky blk loc val) := by
  unfold bmodky
  with_reducible repeat' first | refine .bind ?_ fun _ => ?_ | refine .ite ?_ ?_ | split
  all_goals simp [hk]

@[simp] theorem marksKept_findKey (hk : 1 < k) (key : Option Key) : MarksKept strict k (findKey key) := by
  unfold findKey
  with_reducible repeat' first | refine .bind ?_ fun _ => ?_ | refine .ite ?_ ?_ | split
  all_goals simp [hk]

-- With a handle that may write.
theorem guarded_modifyKey (hk : 1 < k) (fn : String) (key : Option Key) {body : BT Unit}
    (hbody : MarksKept strict k body) (hc : Held c) (hB : Spare strict k B) (hw : c.super.smode = 0) :
    Guarded strict (modifyKey fn key body) c B fun _ c' B' => Same c c' ∧ Fewer strict B B' := by
  refine guarded_api (fun _ _ _ h => ⟨h,Fewer.refl B⟩) fun _ => ?_
  have hclear : Same c { c with err := ⟨"", 0, .none⟩ } := ⟨rfl,rfl,rfl,rfl,rfl⟩
  refine guarded_bind (guarded_bind (guarded_get.2 ?_))
  rw [if_neg (not_not.2 hw)]
  refine (guarded_within fn () ?_ (hc.same hclear) hB).bind fun _ c1 B1 h1 => ?_
  · refine .bind (marksKept_findKey hk key) fun _ => .ite hbody (.pure _)
  · refine (guarded_leave ((hc.same hclear).one_lt h1.1)).mono fun _ c2 B2 h2 => ?_
    obtain ⟨rfl,rfl⟩ := h2
    exact guarded_bind (guarded_get.2 (guarded_pure.2 ⟨hclear.trans h1.1.relock,h1.2⟩))

end Keys

end Btlib
