import Btlib.Cache.MarksKeptDelete
import Btlib.Source.Files

namespace Btlib

variable [Build] {strict : Prop} {α β : Type} {c c' c'' : Ctx} {B B' : Finset Int} {x : BT α}
  {f : α → BT β}

section Steady

-- What no call but `btcrt`, `btopn` and `btcls` changes.
structure Steady (c c' : Ctx) : Prop where
  isopen : c'.isopen = c.isopen
  shared : c'.shared = c.shared
  lckcnt : c'.lckcnt = c.lckcnt
  mode : c'.super.smode = c.super.smode

omit [Build] in
theorem Steady.refl (c : Ctx) : Steady c c := ⟨rfl,rfl,rfl,rfl⟩

omit [Build] in
theorem Steady.trans (h : Steady c c') (h' : Steady c' c'') : Steady c c'' :=
  ⟨h'.isopen.trans h.isopen,h'.shared.trans h.shared,h'.lckcnt.trans h.lckcnt,h'.mode.trans h.mode⟩

omit [Build] in
theorem Same.steady (h : Same c c') : Steady c c' := ⟨h.isopen,h.shared,h.lckcnt,h.mode⟩

omit [Build] in
theorem Held.steady (h : Held c) (hs : Steady c c') : Held c' := fun hc => by
  rw [hs.lckcnt]
  exact h (hs.shared.symm.trans hc)

-- Only the current root is busy.
def Calm (strict : Prop) (c : Ctx) (B : Finset Int) : Prop := strict → B ⊆ {c.super.scroot}

omit [Build] in
theorem Calm.same (h : Calm strict c B) (hs : Same c c') (hf : Fewer strict B B') :
    Calm strict c' B' := fun h0 => by
  rw [hs.root]
  exact (hf h0).trans (h h0)

omit [Build] in
theorem Calm.card (h : Calm strict c B) (h0 : strict) : B.card ≤ 1 :=
  (Finset.card_le_card (h h0)).trans (Finset.card_singleton _).le

theorem Calm.spare (h : Calm strict c B) (hslots : strict → 3 ≤ ZMXBLK) : Spare strict 2 B := fun h0 => by
  have := h.card h0
  have := hslots h0
  omega

theorem Calm.slot (h : Calm strict c B) (hslots : strict → 3 ≤ ZMXBLK) (h0 : strict) :
    B.card < ZMXBLK := by
  have := h.card h0
  have := hslots h0
  omega

-- `x` is run with the lock of a shared handle held, and leaves only the current root busy.
def Calming (strict : Prop) (x : BT α) : Prop :=
  ∀ c B, Held c → Calm strict c B → Guarded strict x c B fun _ c' B' => Steady c c' ∧ Calm strict c' B'

theorem MarksKept.calming (h : MarksKept strict 2 x) (hslots : strict → 3 ≤ ZMXBLK) : Calming strict x :=
  fun c B hc hB => (h c B hc (hB.spare hslots)).mono fun _ _ _ h => ⟨h.1.steady,hB.same h.1 h.2⟩

theorem Calming.bind (hx : Calming strict x) (hf : ∀ a, Calming strict (f a)) :
    Calming strict (x >>= f) := by
  intro c B hc hB
  refine (hx c B hc hB).bind fun a c' B' h => ?_
  exact (hf a c' B' (hc.steady h.1) h.2).mono fun _ _ _ h' => ⟨h.1.trans h'.1,h'.2⟩

-- What only looks at the handle and the error.
def Idle (strict : Prop) (x : BT α) : Prop :=
  ∀ c B, Guarded strict x c B fun _ c' B' => Same c c' ∧ B' = B

theorem Idle.bind (hx : Idle strict x) (hf : ∀ a, Idle strict (f a)) : Idle strict (x >>= f) := by
  intro c B
  refine (hx c B).bind fun a c' B' h => ?_
  obtain ⟨hs,rfl⟩ := h
  exact (hf a c' B').mono fun _ _ _ h' => ⟨hs.trans h'.1,h'.2⟩

theorem Idle.ite {p : Prop} [Decidable p] {y : BT α} (hx : Idle strict x) (hy : Idle strict y) :
    Idle strict (if p then x else y) := by
  split
  · exact hx
  · exact hy

@[simp] theorem idle_pure (a : α) : Idle strict (pure a : BT α) := fun c _ =>
  guarded_pure.2 ⟨Same.refl c,rfl⟩

@[simp] theorem idle_get : Idle strict (get : BT Ctx) := fun c _ => guarded_get.2 ⟨Same.refl c,rfl⟩

theorem Idle.map (hx : Idle strict x) (g : α → β) : Idle strict (g <$> x) := by
  rw [map_eq_pure_bind]
  exact hx.bind fun a => idle_pure (g a)

@[simp] theorem idle_bterr (name : String) (code : Int) (arg : Arg) :
    Idle strict (bterr name code arg) := fun _ _ =>
  guarded_bind (guarded_ask ⟨trivial,fun _ _ => guarded_modify.2 ⟨⟨rfl,rfl,rfl,rfl,rfl⟩,rfl⟩⟩)

@[simp] theorem idle_btgerr : Idle strict btgerr := idle_get.bind fun _ => idle_pure _

theorem Idle.calm (hx : Idle strict x) (hB : Calm strict c B) :
    Guarded strict x c B fun _ c' B' => Same c c' ∧ Calm strict c' B' :=
  (hx c B).mono fun _ _ B' h => ⟨h.1,hB.same h.1 (h.2 ▸ Fewer.refl B')⟩

end Steady

section Session

theorem guarded_brdsup (hs : strict → B.card < ZMXBLK) :
    Guarded strict brdsup c B fun _ c' B' => Same c c' ∧ B' = B := by
  have hinf := fun (c : Ctx) (w : Inf) => guarded_bgtinf (c := c) ZSUPER w fun h => Or.inr (hs h)
  refine (guarded_brdblk ZSUPER fun h => Or.inr (hs h)).bind fun r c1 B1 h1 => ?_
  obtain ⟨h1,rfl,-⟩ := h1
  have hend : ∀ (x : BT Unit), Idle strict x → ∀ c', Same c c' →
      Guarded strict (do x; btgerr) c' B1 fun _ c' B' => Same c c' ∧ B' = B1 := fun x hx c' h =>
    ((hx.bind fun _ => idle_btgerr) c' B1).mono fun _ _ _ h' => ⟨h.trans h'.1,h'.2⟩
  dsimp only
  split
  · exact hend _ (idle_bterr _ _ _) _ h1
  · refine (hinf c1 _).bind fun _ c2 B2 h2 => ?_
    obtain ⟨h2,rfl⟩ := h2
    refine (hinf c2 _).bind fun _ c3 B3 h3 => ?_
    obtain ⟨h3,rfl⟩ := h3
    refine (hinf c3 _).bind fun _ c4 B4 h4 => ?_
    obtain ⟨h4,rfl⟩ := h4
    have h4 := ((h1.trans h2).trans h3).trans h4
    simp only [guarded_ite]
    repeat' split
    any_goals exact hend _ (idle_bterr _ _ _) _ h4
    refine (hinf c4 _).bind fun _ c5 B5 h5 => ?_
    obtain ⟨h5,rfl⟩ := h5
    refine (hinf c5 _).bind fun _ c6 B6 h6 => ?_
    obtain ⟨h6,rfl⟩ := h6
    have h6 := (h4.trans h5).trans h6
    refine guarded_bind (guarded_modify.2 ((idle_btgerr _ B6).mono fun _ _ _ h' => ⟨?_,h'.2⟩))
    exact ⟨h'.1.isopen.trans h6.isopen,h'.1.shared.trans h6.shared,h'.1.lckcnt.trans h6.lckcnt,
      h'.1.root.trans h6.root,h'.1.mode.trans h6.mode⟩

theorem guarded_block_outer (h0 : 0 ≤ c.lckcnt) (hB : Calm strict c B) (hslots : strict → 3 ≤ ZMXBLK) :
    Guarded strict block c B fun r c' B' => Calm strict c' B' ∧
      (r = true ∧ Same { c with lckcnt := c.lckcnt + 1 } c' ∨ r = false ∧ Same c c' ∧ c.lckcnt = 0) := by
  refine guarded_bind (guarded_get.2 ?_)
  rw [guarded_ite]
  split
  · exact guarded_bind (guarded_modify.2 (guarded_pure.2 ⟨hB,Or.inl ⟨rfl,.refl _⟩⟩))
  · rename_i hn
    have hn : c.lckcnt = 0 := by omega
    refine guarded_bind (guarded_ask ⟨trivial,fun (r : Bool) _ => ?_⟩)
    rw [guarded_ite]
    split
    · have hdone : ∀ c' B', Same c c' → Calm strict c' B' →
          Guarded strict (do modify fun c => { c with lckcnt := 1 }; return true : BT Bool) c' B'
            fun r c' B' => Calm strict c' B' ∧ (r = true ∧ Same { c with lckcnt := c.lckcnt + 1 } c' ∨
              r = false ∧ Same c c' ∧ c.lckcnt = 0) := by
        intro c' B' h hB
        refine guarded_bind (guarded_modify.2 (guarded_pure.2 ⟨hB,Or.inl ⟨rfl,?_⟩⟩))
        exact ⟨h.isopen,h.shared,by simp [hn],h.root,h.mode⟩
      dsimp only
      rw [guarded_ite]
      split
      · refine (guarded_brdsup fun hs => hB.slot hslots hs).bind fun _ c1 B1 h1 => ?_
        obtain ⟨h1,rfl⟩ := h1
        refine (guarded_brdblk _ fun hs => Or.inr (hB.slot hslots hs)).bind fun r c2 B2 h2 => ?_
        obtain ⟨h2,rfl,-⟩ := h2
        have h2 := h1.trans h2
        split
        · exact hdone _ _ h2 (hB.same h2 (.refl B2))
        · refine (guarded_bsetbs_true _ fun hs => Or.inr (hB.slot hslots hs)).bind fun _ c3 B3 h3 => ?_
          refine hdone _ _ (h2.trans h3.1) fun hs => ?_
          have hroot : c3.super.scroot = c.super.scroot := (h2.trans h3.1).root
          have := hB hs
          rw [hroot, ← h2.root] at *
          rcases h3.2 with rfl | rfl
          · exact Finset.insert_subset (Finset.mem_singleton_self _) this
          · exact this
      · exact hdone _ _ (Same.refl c) hB
    · exact guarded_pure.2 ⟨hB,Or.inr ⟨rfl,Same.refl c,hn⟩⟩

theorem guarded_enter_outer (fn : String) (h0 : 0 ≤ c.lckcnt) (hB : Calm strict c B)
    (hslots : strict → 3 ≤ ZMXBLK) : Guarded strict (enter fn) c B fun r c' B' => Calm strict c' B' ∧
      (r = true ∧ Same (c.relock 1) c' ∨ r = false ∧ Same c c' ∧ c.shared = true ∧ c.lckcnt = 0) := by
  refine guarded_bind (guarded_get.2 ?_)
  rw [guarded_ite]
  split
  · rename_i hs
    have hlock : c.relock 1 = { c with lckcnt := c.lckcnt + 1 } := by rw [Ctx.relock, if_pos hs]
    refine (guarded_block_outer h0 hB hslots).bind fun r c1 B1 h1 => ?_
    obtain ⟨hB1,⟨rfl,h1⟩ | ⟨rfl,h1,hn⟩⟩ := h1
    · exact guarded_pure.2 ⟨hB1,Or.inl ⟨rfl,hlock ▸ h1⟩⟩
    · dsimp only
      rw [if_pos (by decide)]
      refine ((idle_bterr _ _ _).calm hB1).bind fun _ c2 B2 h2 => guarded_pure.2 ⟨h2.2,Or.inr ?_⟩
      exact ⟨rfl,h1.trans h2.1,hs,hn⟩
  · rename_i hs
    refine guarded_pure.2 ⟨hB,Or.inl ⟨rfl,?_⟩⟩
    rw [Ctx.relock, if_neg hs]
    exact .refl c

-- The handle after `leave`.
def Ctx.unlock (c : Ctx) : Ctx :=
  { c with lckcnt := if c.shared = true ∧ 0 < c.lckcnt then c.lckcnt - 1 else c.lckcnt }

theorem guarded_bulock (h0 : 0 ≤ c.lckcnt) (hB : Calm strict c B) (hslots : strict → 3 ≤ ZMXBLK) :
    Guarded strict bulock c B fun _ c' B' => Calm strict c' B' ∧
      Same { c with lckcnt := if 0 < c.lckcnt then c.lckcnt - 1 else c.lckcnt } c' := by
  refine guarded_bind (guarded_get.2 ?_)
  rw [guarded_ite]
  split
  · rename_i h1
    refine guarded_modify.2 ⟨hB,?_⟩
    rw [if_pos (by omega)]
    exact .refl _
  · rw [guarded_ite]
    split
    · rename_i h1
      have hheld : Held c := fun _ => by omega
      refine (marksKept_btsync Nat.two_pos c B hheld (hB.spare hslots)).bind fun _ c1 B1 h2 => ?_
      have hB1 := hB.same h2.1 h2.2
      refine guarded_bind (guarded_ask ⟨trivial,fun (r : Bool) _ => ?_⟩)
      have hend : ∀ c', Same c c' → Guarded strict (modify fun c => { c with lckcnt := 0 } : BT Unit) c' B1
          fun _ c' B' => Calm strict c' B' ∧
            Same { c with lckcnt := if 0 < c.lckcnt then c.lckcnt - 1 else c.lckcnt } c' := by
        intro c' h
        have hB1 : Calm strict c' B1 := hB.same h h2.2
        exact guarded_modify.2 ⟨hB1,h.isopen,h.shared,by simp [h1],h.root,h.mode⟩
      dsimp only
      rw [guarded_ite]
      split
      · refine (idle_bterr _ _ _ c1 B1).bind fun _ c2 B2 h3 => ?_
        obtain ⟨h3,rfl⟩ := h3
        exact hend _ (h2.1.trans h3)
      · exact hend _ h2.1
    · rename_i h1 h2
      refine guarded_pure.2 ⟨hB,?_⟩
      rw [if_neg (by omega)]
      exact .refl c

theorem guarded_leave_outer (h0 : 0 ≤ c.lckcnt) (hB : Calm strict c B) (hslots : strict → 3 ≤ ZMXBLK) :
    Guarded strict leave c B fun _ c' B' => Calm strict c' B' ∧ Same c.unlock c' := by
  refine guarded_bind (guarded_get.2 ?_)
  rw [guarded_ite]
  split
  · rename_i hs
    refine (guarded_bulock h0 hB hslots).mono fun _ c' B' h => ⟨h.1,?_⟩
    have hiff : (c.shared = true ∧ 0 < c.lckcnt) = (0 < c.lckcnt) := by simp [hs]
    simp only [Ctx.unlock, hiff]
    exact h.2
  · rename_i hs
    refine guarded_pure.2 ⟨hB,?_⟩
    rw [Ctx.unlock, if_neg fun h => hs h.1]
    exact .refl c

omit [Build] in
theorem Ctx.unlock_relock (h0 : 0 ≤ c.lckcnt) : (c.relock 1).unlock = c := by
  have hl : (c.relock 1).unlock.lckcnt = c.lckcnt := by
    cases hsh : c.shared with
    | true =>
        have hpos : 0 < c.lckcnt + 1 := by omega
        simp only [Ctx.unlock, Ctx.relock, hsh, if_true, true_and, if_pos hpos]
        omega
    | false =>
        simp only [Ctx.unlock, Ctx.relock, hsh, Bool.false_eq_true, false_and, if_false]
  exact congrArg (fun n => { c with lckcnt := n }) hl

omit [Build] in
theorem Ctx.unlock_of_eq (h0 : c.lckcnt = 0) : c.unlock = c := by
  rw [Ctx.unlock, if_neg fun h => by omega]

omit [Build] in
theorem Steady.unlock (h : Steady c c') : Steady c.unlock c'.unlock := by
  refine ⟨h.isopen,h.shared,?_,h.mode⟩
  simp only [Ctx.unlock, h.lckcnt, h.shared]

omit [Build] in
theorem Same.unlock (h : Same c c') : Same c.unlock c'.unlock := by
  refine ⟨h.isopen,h.shared,?_,h.root,h.mode⟩
  simp only [Ctx.unlock, h.lckcnt, h.shared]

omit [Build] in
theorem Held.relock_same (h0 : 0 ≤ c.lckcnt) (h : Same (c.relock 1) c') : Held c' := by
  intro hs
  have hs : c.shared = true := h.shared.symm.trans hs
  rw [h.lckcnt]
  simp only [Ctx.relock, hs, if_true]
  omega

omit [Build] in
theorem Ctx.lckcnt_relock_nonneg (h0 : 0 ≤ c.lckcnt) : 0 ≤ (c.relock 1).lckcnt := by
  simp only [Ctx.relock]
  split <;> omega

-- A call that takes the lock of a shared handle and gives it back: `R` is what its body does.
theorem guarded_session_of (fn : String) (busy : α) {body : BT α} {R : Ctx → Prop}
    (hbody : ∀ c1 B1, Same (c.relock 1) c1 → Calm strict c1 B1 →
      Guarded strict body c1 B1 fun _ c' B' => R c' ∧ 0 ≤ c'.lckcnt ∧ Calm strict c' B')
    (hf : ∀ a, Idle strict (f a)) (h0 : 0 ≤ c.lckcnt) (hB : Calm strict c B)
    (hslots : strict → 3 ≤ ZMXBLK) :
    Guarded strict (do let r ← within fn busy body; leave; f r) c B fun _ c' B' =>
      (Steady c c' ∧ c.shared = true ∧ c.lckcnt = 0 ∨ ∃ c2, R c2 ∧ Steady c2.unlock c') ∧
        Calm strict c' B' := by
  have hend : ∀ c' B' a, 0 ≤ c'.lckcnt → Calm strict c' B' →
      Guarded strict (do leave; f a) c' B' fun _ c'' B'' => Steady c'.unlock c'' ∧ Calm strict c'' B'' := by
    intro c' B' a h0 hB
    refine (guarded_leave_outer h0 hB hslots).bind fun _ c2 B2 h2 => ?_
    exact ((hf a).calm h2.1).mono fun _ c3 _ h3 => ⟨h2.2.steady.trans h3.1.steady,h3.2⟩
  refine guarded_bind ((guarded_enter_outer fn h0 hB hslots).bind fun r c1 B1 h1 => ?_)
  obtain ⟨hB1,⟨rfl,h1⟩ | ⟨rfl,h1,hs,hn⟩⟩ := h1
  · refine (hbody c1 B1 h1 hB1).mono fun a c2 B2 h2 => ?_
    exact (hend c2 B2 a h2.2.1 h2.2.2).mono fun _ _ _ h => ⟨Or.inr ⟨c2,h2.1,h.1⟩,h.2⟩
  · refine guarded_pure.2 ((hend c1 B1 busy (h1.lckcnt ▸ h0) hB1).mono fun _ _ _ h => ⟨Or.inl ?_,h.2⟩)
    have := h1.steady.unlock.trans h.1
    rw [Ctx.unlock_of_eq hn] at this
    exact ⟨this,hs,hn⟩

theorem guarded_session (fn : String) (busy : α) {body : BT α}
    (hbody : ∀ c1 B1, Same (c.relock 1) c1 → Calm strict c1 B1 →
      Guarded strict body c1 B1 fun _ c' B' => Steady c1 c' ∧ Calm strict c' B')
    (hf : ∀ a, Idle strict (f a)) (h0 : 0 ≤ c.lckcnt) (hB : Calm strict c B)
    (hslots : strict → 3 ≤ ZMXBLK) :
    Guarded strict (do let r ← within fn busy body; leave; f r) c B fun _ c' B' =>
      Steady c c' ∧ Calm strict c' B' := by
  refine (guarded_session_of (R := Steady (c.relock 1)) fn busy (fun c1 B1 h1 hB1 => ?_) hf h0 hB
    hslots).mono fun _ c' B' h => ⟨?_,h.2⟩
  · refine (hbody c1 B1 h1 hB1).mono fun _ c2 _ h2 => ?_
    have hs := h1.steady.trans h2.1
    exact ⟨hs,hs.lckcnt ▸ Ctx.lckcnt_relock_nonneg h0,h2.2⟩
  · obtain ⟨⟨h,-,-⟩ | ⟨c2,h2,h⟩,-⟩ := h
    · exact h
    · have := h2.unlock.trans h
      rwa [Ctx.unlock_relock h0] at this

end Session

end Btlib
