import Btlib.Cache.Api

namespace Btlib

variable [Build] {strict : Prop} {α β : Type} {c c' : Ctx} {B : Finset Int}

section Marks

def Free (strict : Prop) (B : Finset Int) : Prop := strict → B = ∅

omit [Build] in
theorem Free.calm (h : Free strict B) : Calm strict c B := fun hs => by
  rw [h hs]
  exact Finset.empty_subset _

omit [Build] in
theorem Free.sub (h : Free strict B) {blk : Int} : strict → B ⊆ {blk} := fun hs => by
  rw [h hs]
  exact Finset.empty_subset _

theorem Free.spare (h : Free strict B) (hslots : strict → 3 ≤ ZMXBLK) : Spare strict 2 B := fun hs => by
  have := hslots hs
  rw [h hs, Finset.card_empty]
  omega

theorem guarded_unmark (hB : Calm strict c B) (hs : strict → 3 ≤ ZMXBLK) :
    Guarded strict (bsetbs c.super.scroot false) c B fun _ c' B' => Same c c' ∧ Free strict B' := by
  refine (guarded_bsetbs_false _ fun h => Or.inr (hB.slot hs h)).mono fun _ c' B' h => ⟨h.1,fun h0 => ?_⟩
  have := (h.2 h0).trans (Finset.erase_subset_erase _ (hB h0))
  rw [Finset.erase_singleton] at this
  exact Finset.subset_empty.1 this

theorem guarded_mark (hB : Calm strict c B) (hs : strict → 3 ≤ ZMXBLK) {blk : Int}
    (hroot : c.super.scroot = blk) :
    Guarded strict (bsetbs blk true) c B fun _ c' B' => Same c c' ∧ Calm strict c' B' := by
  refine (guarded_bsetbs_true _ fun h => Or.inr (hB.slot hs h)).mono fun _ c' B' h => ⟨h.1,fun h0 => ?_⟩
  have hB := hB h0
  rw [hroot] at hB
  rw [h.1.root, hroot]
  rcases h.2 with rfl | rfl
  · exact Finset.insert_subset (Finset.mem_singleton_self _) hB
  · exact hB

theorem guarded_setRoot (blk : Int) : Guarded strict (setRoot blk) c B fun _ c' B' =>
    Steady c c' ∧ c'.super.scroot = blk ∧ B' = B :=
  guarded_modify.2 ⟨⟨rfl,rfl,rfl,rfl⟩,rfl,rfl⟩

theorem marksKept_smodUp {k : Nat} : MarksKept strict k smodUp := .setSuper (fun _ => rfl) fun _ => rfl

theorem marksKept_setRootName {k : Nat} (name : Key) : MarksKept strict k (setRootName name) :=
  .setSuper (fun _ => rfl) fun _ => rfl

theorem MarksKept.calm {x : BT α} (h : MarksKept strict 2 x) (hslots : strict → 3 ≤ ZMXBLK) (hc : Held c)
    (hB : Calm strict c B) : Guarded strict x c B fun _ c' B' => Same c c' ∧ Calm strict c' B' :=
  (h c B hc (hB.spare hslots)).mono fun _ _ _ h => ⟨h.1,hB.same h.1 h.2⟩

theorem MarksKept.free {x : BT α} (h : MarksKept strict 2 x) (hslots : strict → 3 ≤ ZMXBLK) (hc : Held c)
    (hB : Free strict B) : Guarded strict x c B fun _ c' B' => Same c c' ∧ Free strict B' :=
  (h c B hc (hB.spare hslots)).mono fun _ _ _ h => ⟨h.1,fun h0 => by
    have := h.2 h0
    rw [hB h0] at this
    exact Finset.subset_empty.1 this⟩

end Marks

section Super

variable (hs : strict → 3 ≤ ZMXBLK)
include hs

theorem guarded_unmarkOld {f : Unit → BT β} {R : β → Ctx → Finset Int → Prop} (hB : Calm strict c B)
    (hroot : strict → 0 ≤ c.super.scroot)
    (hf : ∀ c' B', Same c c' → Free strict B' → Guarded strict (f ()) c' B' R) :
    Guarded strict (if 0 ≤ c.super.scroot then bsetbs c.super.scroot false >>= f else f ()) c B R := by
  rw [guarded_ite]
  split
  · exact (guarded_unmark hB hs).bind fun _ c' B' h => hf c' B' h.1 h.2
  · rename_i hn
    exact hf c B (.refl c) fun h => absurd (hroot h) hn

theorem guarded_toSuper {x : BT β} {R : β → Ctx → Finset Int → Prop} (hB : Free strict B)
    (hx : ∀ c' B', Steady c c' → c'.super.scroot = ZSUPER → Calm strict c' B' →
      Guarded strict x c' B' R) :
    Guarded strict (do setRoot ZSUPER; bsetbs ZSUPER true; x) c B R := by
  refine (guarded_setRoot ZSUPER).bind fun _ c1 B1 h1 => ?_
  obtain ⟨h1,hr,rfl⟩ := h1
  refine (guarded_mark hB.calm hs hr).bind fun _ c2 B2 h2 => ?_
  exact hx c2 B2 (h1.trans h2.1.steady) (h2.1.root.trans hr) h2.2

theorem guarded_toRoot (blk : Int) {p : Prop} [Decidable p] (hB : strict → B ⊆ {blk}) :
    Guarded strict (do setRoot blk; if p then bsetbs blk true) c B fun _ c' B' =>
      Steady c c' ∧ Calm strict c' B' := by
  refine (guarded_setRoot blk).bind fun _ c1 B1 h1 => ?_
  obtain ⟨h1,hr,rfl⟩ := h1
  have hB1 : Calm strict c1 B1 := fun h => hr ▸ hB h
  rw [guarded_ite]
  split
  · exact (guarded_mark hB1 hs hr).mono fun _ c2 B2 h2 => ⟨h1.trans h2.1.steady,h2.2⟩
  · exact guarded_pure.2 ⟨h1,hB1⟩

theorem guarded_btchgrBody (root : Key) (hc : Held c) (hB : Calm strict c B)
    (hroot : strict → 0 ≤ c.super.scroot) :
    Guarded strict (do
      let svblk := (← get).super.scroot
      if 0 ≤ svblk then bsetbs svblk false
      setRoot ZSUPER
      bsetbs ZSUPER true
      let r ← bfndky root
      bsetbs ZSUPER false
      bclrlf
      if r.1 = 0 then
        let type ← bgtinf r.2 .ZBTYPE
        if type ≠ ZROOT then bterr "BTCHGR" QBLKNR (.num r.2)
        else
          setRoot r.2
          setRootName root
          bsetbs r.2 true
      else
        setRoot svblk
        if svblk ≠ ZNULL then bsetbs svblk true) c B
      fun _ c' B' => Steady c c' ∧ Calm strict c' B' := by
  refine guarded_bind (guarded_get.2 (guarded_unmarkOld hs hB hroot fun c0 B0 h0 hB0 => ?_))
  refine guarded_toSuper hs hB0 fun c1 B1 h1 hr1 hB1 => ?_
  have h1 := h0.steady.trans h1
  refine ((marksKept_bfndky Nat.one_lt_two root).calm hs (hc.steady h1) hB1).bind fun r c2 B2 h2 => ?_
  obtain ⟨h2,hB2⟩ := h2
  have hr2 := h2.root.trans hr1
  have h2 := h1.trans h2.steady
  rw [← hr2]
  refine (guarded_unmark hB2 hs).bind fun _ c3 B3 h3 => ?_
  obtain ⟨h3,hB3⟩ := h3
  have h3 := h2.trans h3.steady
  refine (marksKept_bclrlf.free hs (hc.steady h3) hB3).bind fun _ c4 B4 h4 => ?_
  obtain ⟨h4,hB4⟩ := h4
  have h4 := h3.trans h4.steady
  rw [guarded_ite]
  split
  · refine ((marksKept_bgtinf Nat.two_pos _ _).free hs (hc.steady h4) hB4).bind fun _ c5 B5 h5 => ?_
    obtain ⟨h5,hB5⟩ := h5
    have h5 := h4.trans h5.steady
    rw [guarded_ite]
    split
    · exact ((idle_bterr _ _ _).calm hB5.calm).mono fun _ _ _ h => ⟨h5.trans h.1.steady,h.2⟩
    · refine (guarded_setRoot _).bind fun _ c6 B6 h6 => ?_
      obtain ⟨h6,hr6,rfl⟩ := h6
      have h6 := h5.trans h6
      refine ((marksKept_setRootName root).free hs (hc.steady h6) hB5).bind fun _ c7 B7 h7 => ?_
      refine (guarded_mark h7.2.calm hs (h7.1.root.trans hr6)).mono fun _ _ _ h8 => ?_
      exact ⟨(h6.trans h7.1.steady).trans h8.1.steady,h8.2⟩
  · exact (guarded_toRoot hs _ hB4.sub).mono fun _ _ _ h => ⟨h4.trans h.1,h.2⟩

end Super

section Errors

-- An error that was recorded stays.
def Stays (x : BT α) : Prop :=
  ∀ c B, c.err.qerror ≠ 0 → Guarded False x c B fun _ c' _ => c'.err.qerror ≠ 0

theorem Stays.bind {x : BT α} {f : α → BT β} (hx : Stays x) (hf : ∀ a, Stays (f a)) :
    Stays (x >>= f) := fun c B hc =>
  (hx c B hc).bind fun a c' B' h => hf a c' B' h

theorem Stays.ite {p : Prop} [Decidable p] {x y : BT α} (hx : Stays x) (hy : Stays y) :
    Stays (if p then x else y) := by
  split
  · exact hx
  · exact hy

@[simp] theorem stays_pure (a : α) : Stays (pure a : BT α) := fun _ _ h => guarded_pure.2 h

@[simp] theorem stays_get : Stays (get : BT Ctx) := fun _ _ h => guarded_get.2 h

@[simp] theorem stays_ask (o : Op) : Stays (ask o) := fun _ _ h _ =>
  ⟨by cases o <;> first | trivial | exact fun h => h.elim,fun _ _ => h⟩

theorem stays_modify {f : Ctx → Ctx} (h : ∀ c, (f c).err = c.err) : Stays (modify f : BT Unit) :=
  fun c _ hc => guarded_modify.2 (by rwa [h])

@[simp] theorem stays_setSuper (f : Super → Super) : Stays (setSuper f) := stays_modify fun _ => rfl

@[simp] theorem stays_bterr (name : String) (code : Int) (arg : Arg) : Stays (bterr name code arg) := by
  refine .bind (stays_ask _) fun _ c B hc => guarded_modify.2 ?_
  dsimp only
  rwa [if_neg hc]

@[simp] theorem stays_brdblk (blk : Int) : Stays (brdblk blk) :=
  .bind (stays_ask _) fun _ => .ite (.bind (stays_bterr _ _ _) fun _ => stays_pure _) (stays_pure _)

@[simp] theorem stays_bgtinf (blk : Int) (type : Inf) : Stays (bgtinf blk type) := by
  unfold bgtinf
  with_reducible repeat' first | refine .bind ?_ fun _ => ?_ | refine .ite ?_ ?_ | split
  all_goals simp

@[simp] theorem stays_bsetbk (blk type misc nxblk nkeys nblks dupblk : Int) :
    Stays (bsetbk blk type misc nxblk nkeys nblks dupblk) := by
  unfold bsetbk bstinf
  with_reducible repeat' first | refine .bind ?_ fun _ => ?_ | refine .ite ?_ ?_ | split
  all_goals first | exact stays_ask _ | simp

theorem stays_btsync : Stays btsync := by
  unfold btsync bwrsup btgerr
  with_reducible repeat' first | refine .bind ?_ fun _ => ?_ | refine .ite ?_ ?_ | split
  all_goals first | exact stays_ask _ | simp

theorem stays_leave : Stays leave := by
  unfold leave bulock
  with_reducible repeat' first | refine .bind ?_ fun _ => ?_ | refine .ite ?_ ?_ | split
  all_goals first | exact stays_btsync | exact stays_ask _ | exact stays_modify fun _ => rfl | simp

end Errors

section Create

theorem guarded_bterr (name : String) (code : Int) (arg : Arg) (hcode : code ≠ 0) :
    Guarded strict (bterr name code arg) c B fun _ c' B' => Same c c' ∧ c'.err.qerror ≠ 0 ∧ B' = B := by
  refine guarded_bind (guarded_ask ⟨trivial,fun _ _ => guarded_modify.2 ⟨⟨rfl,rfl,rfl,rfl,rfl⟩,?_,rfl⟩⟩)
  dsimp only
  split
  · exact hcode
  · assumption

-- A handle that may not write is told so.
theorem guarded_binsky (key : Key) (val : Int) (hslots : strict → 3 ≤ ZMXBLK) (hc : Held c)
    (hB : Calm strict c B) (ho : c.isopen = true) : Guarded strict (binsky key val) c B fun r c' B' =>
      (r = 0 → c.super.smode = 0) ∧ Same c c' ∧ Calm strict c' B' := by
  by_cases hw : c.super.smode = 0
  · exact ((marksKept_binsky Nat.one_lt_two key val).calm hslots hc hB).mono fun _ _ _ h => ⟨fun _ => hw,h⟩
  refine guarded_api (fun _ _ h => absurd (ho.symm.trans h) (by decide)) fun _ => ?_
  have hclear : Same c { c with err := ⟨"", 0, .none⟩ } := ⟨rfl,rfl,rfl,rfl,rfl⟩
  have hheld := hc.same hclear
  refine guarded_bind (guarded_bind (guarded_bind ((guarded_enter "BINSKY" hheld).mono
    fun r c1 B1 h1 => ?_)))
  obtain ⟨rfl,rfl,rfl⟩ := h1
  rw [guarded_ite, if_pos rfl]
  refine guarded_bind (guarded_get.2 ?_)
  have hw' : ¬ ((({ c with err := ⟨"", 0, .none⟩ } : Ctx).relock 1).super.smode = 0) := hw
  rw [guarded_ite, if_pos hw']
  refine (guarded_bterr _ _ _ (by decide)).mono fun _ c2 B2 h2 => ?_
  obtain ⟨h2,herr,rfl⟩ := h2
  refine guarded_bind ((guarded_leave (hheld.one_lt h2)).mono fun _ c3 B3 h3 => ?_)
  obtain ⟨rfl,rfl⟩ := h3
  refine guarded_pure.2 (guarded_bind (guarded_get.2 (guarded_pure.2 ?_)))
  have hsame := hclear.trans h2.relock
  exact ⟨fun h => absurd h herr,hsame,hB.same hsame (.refl _)⟩

-- A call of `bupdky` or `bdelky` on a handle that may not write.
theorem guarded_refused (fn : String) (key : Option Key) (body : BT Unit) (ho : c.isopen = true)
    (h0 : 0 ≤ c.lckcnt) (hB : Calm strict c B) (hw : c.super.smode ≠ 0) (hs : strict → 3 ≤ ZMXBLK) :
    Guarded strict (modifyKey fn key body) c B fun r c' B' =>
      r ≠ 0 ∧ Same c.unlock c' ∧ Calm strict c' B' := by
  refine guarded_api (fun _ _ h => absurd (ho.symm.trans h) (by decide)) fun _ => ?_
  have hclear : Same c { c with err := ⟨"", 0, .none⟩ } := ⟨rfl,rfl,rfl,rfl,rfl⟩
  refine guarded_bind (guarded_bind (guarded_get.2 ?_))
  have hw' : ({ c with err := ⟨"", 0, .none⟩ } : Ctx).super.smode ≠ 0 := hw
  rw [guarded_ite, if_pos hw']
  refine (guarded_bterr _ _ _ (by decide)).bind fun _ c1 B1 h1 => ?_
  obtain ⟨h1,herr,rfl⟩ := h1
  have h1 := hclear.trans h1
  refine ((guarded_leave_outer (h1.lckcnt ▸ h0) (hB.same h1 (.refl _)) hs).and
    (stays_leave c1 _ herr)).mono fun _ c2 B2 h2 => ?_
  obtain ⟨⟨hB2,h2⟩,herr⟩ := h2
  exact guarded_bind (guarded_get.2 (guarded_pure.2 ⟨herr,h1.unlock.trans h2,hB2⟩))

variable (hs : strict → 3 ≤ ZMXBLK)
include hs

theorem guarded_btcrtrBlock (root : Key) (hc : Held c) (hB : Free strict B) (hw : c.super.smode = 0) :
    Guarded strict (btcrtrBlock root) c B fun _ c' B' => Steady c c' ∧ Calm strict c' B' := by
  refine (MarksKept.free (marksKept_bgtfre Nat.two_pos) hs hc hB).bind fun blk c1 B1 h1 => ?_
  obtain ⟨h1,hB1⟩ := h1
  rw [guarded_ite]
  split
  · refine (guarded_modifyKey Nat.one_lt_two "BUPDKY" (some root)
      (.bind .get fun _ => marksKept_bmodky Nat.two_pos _ _ _) (hc.same h1) (hB1.spare hs)
      (h1.mode.trans hw)).bind fun status c2 B2 h2 => ?_
    have hB2 : Free strict B2 := fun h => Finset.subset_empty.1 (hB1 h ▸ h2.2 h)
    have h2 := h1.trans h2.1
    rw [guarded_ite]
    split
    · refine (MarksKept.free (marksKept_bsetbk Nat.two_pos _ _ _ _ _ _ _) hs (hc.same h2) hB2).bind
        fun _ c3 B3 h3 => ?_
      obtain ⟨h3,hB3⟩ := h3
      have h3 := h2.trans h3
      refine (guarded_setRoot _).bind fun _ c4 B4 h4 => ?_
      obtain ⟨h4,hr4,rfl⟩ := h4
      have h4 := h3.steady.trans h4
      refine ((marksKept_setRootName root).free hs (hc.steady h4) hB3).bind fun _ c5 B5 h5 => ?_
      refine (guarded_mark h5.2.calm hs (h5.1.root.trans hr4)).mono fun _ _ _ h6 => ?_
      exact ⟨(h4.trans h5.1.steady).trans h6.1.steady,h6.2⟩
    · exact guarded_pure.2 ⟨h2.steady,hB2.calm⟩
  · exact guarded_pure.2 ⟨h1.steady,hB1.calm⟩

theorem guarded_btcrtrBody (root : Key) (hc : Held c) (hB : Calm strict c B) (ho : c.isopen = true) :
    Guarded strict (do
      let svblk := (← get).super.scroot
      bsetbs svblk false
      setRoot ZSUPER
      bsetbs ZSUPER true
      let status ← binsky root ZNULL
      smodUp
      bsetbs ZSUPER false
      bclrlf
      if status = 0 then btcrtrBlock root
      else
        setRoot svblk
        bsetbs svblk true) c B fun _ c' B' => Steady c c' ∧ Calm strict c' B' := by
  refine guarded_bind (guarded_get.2 ((guarded_unmark hB hs).bind fun _ c0 B0 h0 => ?_))
  refine guarded_toSuper hs h0.2 fun c1 B1 h1 hr1 hB1 => ?_
  have h1 := h0.1.steady.trans h1
  refine (guarded_binsky root ZNULL hs (hc.steady h1) hB1 (h1.isopen.trans ho)).bind
    fun status c2 B2 h2 => ?_
  obtain ⟨hw,h2,hB2⟩ := h2
  have hr2 := h2.root.trans hr1
  have hw := fun h => (h2.mode.trans (hw h))
  have h2 := h1.trans h2.steady
  refine (marksKept_smodUp.calm hs (hc.steady h2) hB2).bind fun _ c3 B3 h3 => ?_
  obtain ⟨h3,hB3⟩ := h3
  have hw := fun h => (h3.mode.trans (hw h))
  have hr3 := h3.root.trans hr2
  have h3 := h2.trans h3.steady
  rw [← hr3]
  refine (guarded_unmark hB3 hs).bind fun _ c4 B4 h4 => ?_
  obtain ⟨h4,hB4⟩ := h4
  have hw := fun h => (h4.mode.trans (hw h))
  have h4 := h3.trans h4.steady
  refine (marksKept_bclrlf.free hs (hc.steady h4) hB4).bind fun _ c5 B5 h5 => ?_
  obtain ⟨h5,hB5⟩ := h5
  have hw := fun h => (h5.mode.trans (hw h))
  have h5 := h4.trans h5.steady
  rw [guarded_ite]
  split
  · rename_i hz
    exact (guarded_btcrtrBlock hs root (hc.steady h5) hB5 (hw hz)).mono fun _ _ _ h =>
      ⟨h5.trans h.1,h.2⟩
  · refine (guarded_setRoot _).bind fun _ c6 B6 h6 => ?_
    obtain ⟨h6,hr6,rfl⟩ := h6
    exact (guarded_mark hB5.calm hs hr6).mono fun _ _ _ h => ⟨(h5.trans h6).trans h.1.steady,h.2⟩

end Create

section Remove

@[simp] theorem marksKept_bnxtbkLoop {k : Nat} (hk : 0 < k) (n : Nat) (blk : Int) :
    MarksKept strict k (bnxtbkLoop n blk) := by
  induction n with
  | zero => exact .hang
  | succ n ih =>
      unfold bnxtbkLoop
      with_reducible repeat' first | refine .bind ?_ fun _ => ?_ | refine .ite ?_ ?_ | split
      all_goals simp [hk, ih]

@[simp] theorem marksKept_bnxtbk {k : Nat} (hk : 0 < k) (blk : Int) : MarksKept strict k (bnxtbk blk) := by
  unfold bnxtbk bnxtbkStart
  with_reducible repeat' first | refine .bind ?_ fun _ => ?_ | refine .ite ?_ ?_ | split
  all_goals simp [hk]

@[simp] theorem marksKept_freeDataLoop {k : Nat} (hk : 0 < k) (n : Nat) (blk : Int) :
    MarksKept strict k (freeDataLoop n blk) := by
  induction n generalizing blk with
  | zero => exact .hang
  | succ n ih =>
      unfold freeDataLoop
      with_reducible repeat' first | refine .bind ?_ fun _ => ?_ | refine .ite ?_ ?_ | split
      all_goals simp [hk, ih]

@[simp] theorem marksKept_freeIndexLoop {k : Nat} (hk : 0 < k) (n : Nat) (blk : Int) :
    MarksKept strict k (freeIndexLoop n blk) := by
  induction n generalizing blk with
  | zero => exact .hang
  | succ n ih =>
      unfold freeIndexLoop
      with_reducible repeat' first | refine .bind ?_ fun _ => ?_ | refine .ite ?_ ?_ | split
      all_goals simp [hk, ih]

variable (hs : strict → 3 ≤ ZMXBLK)
include hs

theorem guarded_freeRoot (blk : Int) (hc : Held c) (hB : Calm strict c B) (hr : c.super.scroot = ZSUPER) :
    Guarded strict (freeRoot blk) c B fun _ c' B' => Steady c c' ∧ Free strict B' := by
  refine (marksKept_bclrlf.calm hs hc hB).bind fun _ c1 B1 h1 => ?_
  obtain ⟨h1,hB1⟩ := h1
  refine (marksKept_smodUp.calm hs (hc.same h1) hB1).bind fun _ c2 B2 h2 => ?_
  obtain ⟨h2,hB2⟩ := h2
  have h2 := h1.trans h2
  rw [← h2.root.trans hr]
  refine (guarded_unmark hB2 hs).bind fun _ c3 B3 h3 => ?_
  obtain ⟨h3,hB3⟩ := h3
  have h3 := h2.trans h3
  refine (guarded_setRoot blk).bind fun _ c4 B4 h4 => ?_
  obtain ⟨h4,hr4,rfl⟩ := h4
  have h4 := h3.steady.trans h4
  refine (guarded_mark hB3.calm hs hr4).bind fun _ c5 B5 h5 => ?_
  obtain ⟨h5,hB5⟩ := h5
  have hr5 := h5.root.trans hr4
  have h5 := h4.trans h5.steady
  refine ((marksKept_bgtinf Nat.two_pos _ _).calm hs (hc.steady h5) hB5).bind fun head c6 B6 h6 => ?_
  obtain ⟨h6,hB6⟩ := h6
  have hr6 := h6.root.trans hr5
  have h6 := h5.trans h6.steady
  refine ((marksKept_freeDataLoop Nat.two_pos _ _).calm hs (hc.steady h6) hB6).bind fun _ c7 B7 h7 => ?_
  obtain ⟨h7,hB7⟩ := h7
  have hr7 := h7.root.trans hr6
  have h7 := h6.trans h7.steady
  refine ((marksKept_bnxtbk Nat.two_pos _).calm hs (hc.steady h7) hB7).bind fun first c8 B8 h8 => ?_
  obtain ⟨h8,hB8⟩ := h8
  have hr8 := h8.root.trans hr7
  have h8 := h7.trans h8.steady
  refine ((marksKept_freeIndexLoop Nat.two_pos _ _).calm hs (hc.steady h8) hB8).bind fun _ c9 B9 h9 => ?_
  obtain ⟨h9,hB9⟩ := h9
  have hr9 := h9.root.trans hr8
  have h9 := h8.trans h9.steady
  rw [← hr9]
  refine (guarded_unmark hB9 hs).bind fun _ c10 B10 h10 => ?_
  obtain ⟨h10,hB10⟩ := h10
  have h10 := h9.trans h10.steady
  exact ((marksKept_bmkfre Nat.two_pos _).free hs (hc.steady h10) hB10).mono fun _ _ _ h =>
    ⟨h10.trans h.1.steady,h.2⟩

theorem guarded_btdelrFind (root : Key) (hc : Held c) (hB : Calm strict c B)
    (hroot : strict → 0 ≤ c.super.scroot) : Guarded strict (btdelrFind root) c B fun f c' B' =>
      f.1 = c.super.scroot ∧ Steady c c' ∧ c'.super.scroot = ZSUPER ∧ Calm strict c' B' := by
  refine guarded_bind (guarded_get.2 (guarded_unmarkOld hs hB hroot fun c0 B0 h0 hB0 => ?_))
  refine guarded_toSuper hs hB0 fun c1 B1 h1 hr1 hB1 => ?_
  have h1 := h0.steady.trans h1
  refine ((marksKept_bfndky Nat.one_lt_two root).calm hs (hc.steady h1) hB1).bind fun r c2 B2 h2 => ?_
  exact guarded_pure.2 ⟨rfl,h1.trans h2.1.steady,h2.1.root.trans hr1,h2.2⟩

-- A name `btdelr` goes on to delete.
def Doomed (svblk : Int) (r : Int × Int) : Prop := r.1 = 0 ∧ r.2 ≠ svblk ∧ r.2 ≠ ZSUPER

instance (svblk : Int) (r : Int × Int) : Decidable (Doomed svblk r) := by
  unfold Doomed
  infer_instance

theorem guarded_btdelrName (root : Key) (svblk : Int) (r : Int × Int) (hc : Held c)
    (h0 : 0 ≤ c.lckcnt) (hB : Calm strict c B) (ho : c.isopen = true) (hr : c.super.scroot = ZSUPER) :
    Guarded strict (btdelrName root svblk r) c B fun status c' B' =>
      Steady (if Doomed svblk r ∧ c.super.smode ≠ 0 then c.unlock else c) c' ∧
        Calm strict { c' with super := { c'.super with scroot := ZSUPER } } B' ∧
        (status = 0 → Free strict B') := by
  unfold btdelrName
  rw [guarded_ite]
  split
  · rename_i hr1
    rw [if_neg fun h => hr1 h.1.1]
    exact guarded_pure.2 ⟨.refl c,hr ▸ hB,fun h => absurd h hr1⟩
  · rename_i hr1
    rw [guarded_ite]
    split
    · rename_i hr2
      rw [if_neg fun h => by have := h.1.2; omega]
      rw [← hr]
      refine (guarded_unmark hB hs).bind fun _ c1 B1 h1 => ?_
      refine ((idle_bterr _ _ _) c1 B1).bind fun _ c2 B2 h2 => guarded_pure.2 ?_
      obtain ⟨h2,rfl⟩ := h2
      exact ⟨(h1.1.trans h2).steady,h1.2.calm,fun _ => h1.2⟩
    · rename_i hr2
      have hd : Doomed svblk r := ⟨not_not.1 hr1,by omega,by omega⟩
      by_cases hw : c.super.smode = 0
      · rw [if_neg fun h => h.2 hw]
        refine (guarded_modifyKey Nat.one_lt_two "BDELKY" (some root) (marksKept_bdelk1 Nat.one_lt_two _) hc
          (hB.spare hs) hw).bind fun status c1 B1 h1 => ?_
        have hB1 := hB.same h1.1 h1.2
        have hr1 := h1.1.root.trans hr
        have h1 := h1.1.steady
        dsimp only
        rw [guarded_ite]
        split
        · refine (guarded_freeRoot hs r.2 (hc.steady h1) hB1 hr1).bind fun _ c2 B2 h2 => ?_
          exact guarded_pure.2 ⟨h1.trans h2.1,h2.2.calm,fun _ => h2.2⟩
        · rename_i hz
          exact guarded_pure.2 ⟨h1,hr1 ▸ hB1,fun h => absurd h hz⟩
      · rw [if_pos ⟨hd,hw⟩]
        refine (guarded_refused "BDELKY" (some root) _ ho h0 hB hw hs).bind fun status c1 B1 h1 => ?_
        obtain ⟨hz,h1,hB1⟩ := h1
        dsimp only
        rw [guarded_ite, if_neg hz]
        have hr1 : c1.super.scroot = ZSUPER := h1.root.trans hr
        exact guarded_pure.2 ⟨h1.steady,hr1 ▸ hB1,fun h => absurd h hz⟩

end Remove

end Btlib
