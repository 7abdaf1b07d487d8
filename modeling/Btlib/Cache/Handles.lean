import Btlib.Cache.Names

namespace Btlib

variable [Build] {α β σ : Type} {strict : Prop} {c c' : Ctx} {B : Finset Int}

section Sound

-- What every call leaves behind, whatever becomes of the count.
def Sound (strict : Prop) (c : Ctx) (B : Finset Int) : Prop := 0 ≤ c.lckcnt ∧ Calm strict c B

omit [Build] in
theorem Sound.same (h : Sound strict c B) (hs : Same c c') : Sound strict c' B :=
  ⟨hs.lckcnt ▸ h.1,h.2.same hs (.refl B)⟩

variable (hs : strict → 3 ≤ ZMXBLK)
include hs

theorem guarded_leave_sound {x : BT α} (h : Sound strict c B)
    (hx : ∀ c B, Sound strict c B → Guarded strict x c B fun _ c' B' => Sound strict c' B') :
    Guarded strict (do leave; x) c B fun _ c' B' => Sound strict c' B' := by
  refine (guarded_leave_outer h.1 h.2 hs).bind fun _ c1 B1 h1 => hx c1 B1 ⟨?_,h1.1⟩
  rw [h1.2.lckcnt]
  have := h.1
  simp only [Ctx.unlock]
  split <;> omega

omit hs in
theorem Idle.sound {x : BT α} (hx : Idle strict x) (h : Sound strict c B) :
    Guarded strict x c B fun _ c' B' => Sound strict c' B' :=
  (hx c B).mono fun _ _ _ h' => h'.2 ▸ h.same h'.1

omit hs in
theorem guarded_close_sound {x : BT α} (hx : Idle strict x) (h : Sound strict c B) :
    Guarded strict (do bacfre; x) c B fun _ c' B' => Sound strict c' B' := by
  refine guarded_bind (guarded_modify.2 (hx.sound ⟨h.1,fun hh => h.2 hh⟩))

theorem guarded_btopnFail (h : Sound strict c B) :
    Guarded strict btopnFail c B fun _ c' B' => Sound strict c' B' :=
  guarded_leave_sound hs h fun _ _ h => guarded_close_sound idle_btgerr h

theorem guarded_btcrtFail (h : Sound strict c B) :
    Guarded strict btcrtFail c B fun _ c' B' => Sound strict c' B' := by
  refine guarded_leave_sound hs h fun c1 B1 h1 => ?_
  exact guarded_bind (guarded_ask ⟨trivial,fun _ _ => guarded_close_sound idle_btgerr h1⟩)

theorem guarded_bulockLoop (n : Nat) (h : Sound strict c B) :
    Guarded strict (bulockLoop n) c B fun _ c' B' => Sound strict c' B' := by
  induction n generalizing c B with
  | zero => exact fun _ => trivial
  | succ n ih =>
      refine guarded_bind (guarded_get.2 ?_)
      rw [guarded_ite]
      split
      · refine (guarded_bulock h.1 h.2 hs).bind fun _ c1 B1 h1 => ih ⟨?_,h1.1⟩
        have hl : c1.lckcnt = if 0 < c.lckcnt then c.lckcnt - 1 else c.lckcnt := h1.2.lckcnt
        have := h.1
        rw [hl]
        split <;> omega
      · exact guarded_pure.2 h

theorem guarded_btcls (h : Sound strict c B) :
    Guarded strict btcls c B fun _ c' B' => Sound strict c' B' := by
  refine guarded_api (fun _ _ _ hsame => h.same hsame) fun _ => ?_
  have h : Sound strict c.clear B := h.same (.clear c)
  refine (guarded_bulockLoop hs _ h).bind fun _ c1 B1 h1 => ?_
  refine guarded_bind (guarded_ask ⟨trivial,fun ok _ => ?_⟩)
  dsimp only
  rw [guarded_ite]
  split
  · exact ((idle_bterr _ _ _).bind fun _ => idle_btgerr).sound h1
  · exact guarded_close_sound idle_btgerr h1

theorem guarded_block_opening {f : Bool → BT β} {Q : β → Ctx → Finset Int → Prop} (hl : c.lckcnt = 0)
    (ho : c.isopen = true) (hr : c.super.scroot = ZSUPER)
    (hf : ∀ ok c' B', Sound strict c' B' → c'.isopen = true → c'.super.scroot = ZSUPER →
      Guarded strict (f ok) c' B' Q) : Guarded strict (block >>= f) c ∅ Q := by
  refine (guarded_block_outer hl.ge (fun _ => Finset.empty_subset _) hs).bind fun ok c1 B1 h1 => ?_
  obtain ⟨hB1,⟨-,h1⟩ | ⟨-,h1,-⟩⟩ := h1
  · have h2 : c1.lckcnt = c.lckcnt + 1 := h1.lckcnt
    exact hf ok c1 B1 ⟨by omega,hB1⟩ (h1.isopen.trans ho) (h1.root.trans hr)
  · exact hf ok c1 B1 ⟨(h1.lckcnt.trans hl).ge,hB1⟩ (h1.isopen.trans ho) (h1.root.trans hr)

theorem guarded_btopn (mode : Int) (shared : Bool) (h : Sound strict c B) :
    Guarded strict (btopn mode shared) c B fun _ c' B' => Sound strict c' B' := by
  refine guarded_bind (guarded_modify.2 (guarded_bind (guarded_ask ⟨trivial,fun ok _ => ?_⟩)))
  have h : Sound strict c.clear B := h.same (.clear c)
  rw [guarded_ite]
  split
  · exact ((idle_bterr _ _ _).bind fun _ => idle_btgerr).sound h
  · refine guarded_bind (guarded_bind (guarded_modify.2 (guarded_bind (guarded_ask
      ⟨trivial,fun _ _ => guarded_modify.2 (guarded_bind (guarded_modify.2 (guarded_bind
        (guarded_modify.2 ?_))))⟩))))
    refine guarded_block_opening hs rfl rfl rfl fun ok c2 B2 hB2 ho2 hr2 => ?_
    have hfail : ∀ c' B', Sound strict c' B' →
        Guarded strict btopnFail c' B' fun _ c' B' => Sound strict c' B' := fun _ _ h =>
      guarded_btopnFail hs h
    rw [guarded_ite]
    split
    · exact ((idle_bterr _ _ _).sound hB2).bind fun _ _ _ h => hfail _ _ h
    · refine (guarded_brdsup fun hh => hB2.2.slot hs hh).bind fun r c3 B3 h3 => ?_
      obtain ⟨h3,rfl⟩ := h3
      have hB3 : Sound strict c3 B3 := hB2.same h3
      rw [guarded_ite]
      split
      · exact hfail _ _ hB3
      · refine (guarded_btchgr hs hB3.1 _ (h3.isopen.trans ho2) hB3.2 fun _ => ?_).bind
          fun r c4 B4 h4 => ?_
        · rw [h3.root, hr2]
        have hB4 : Sound strict c4 B4 := ⟨h4.1.lckcnt ▸ hB3.1,h4.2⟩
        rw [guarded_ite]
        split
        · exact hfail _ _ hB4
        · refine guarded_bind (guarded_modify.2 (guarded_bind (guarded_bind (guarded_get.2
            (guarded_pure.2 ?_)))))
          have hB5 : Sound strict { c4 with super := { c4.super with smode := mode } } B4 :=
            ⟨hB4.1,fun hh => hB4.2 hh⟩
          rw [guarded_ite]
          split
          · exact hfail _ _ hB5
          · exact guarded_leave_sound hs hB5 fun _ _ h => idle_btgerr.sound h

omit hs in
theorem marksKept_label {k : Nat} (hk : 0 < k) (blk : Int) : MarksKept strict k (ask (.label blk)) :=
  .ask (fun _ hB hh => hB.slot hk hh) fun _ _ => rfl

omit hs in
theorem marksKept_freeListLoop {k : Nat} (hk : 0 < k) (n : Nat) (i : Int) :
    MarksKept strict k (freeListLoop n i) := by
  induction n generalizing i with
  | zero => exact .pure _
  | succ n ih =>
      have hlab : MarksKept strict k (ask (.label i)) := marksKept_label hk i
      have hrel : MarksKept strict k (ask (.relabel i)) := .ask (fun _ _ => trivial) fun _ _ => rfl
      unfold freeListLoop
      with_reducible repeat' first | refine .bind ?_ fun _ => ?_ | refine .ite ?_ ?_ | split
      all_goals first | exact hlab | exact hrel | simp [hk, ih]

theorem guarded_btcrtDefault (nkeys : Int) (hl : 0 < c.lckcnt) (hB : Free strict B) :
    Guarded strict (btcrtDefault nkeys) c B fun _ c' B' => Sound strict c' B' := by
  refine ((marksKept_label Nat.two_pos _).free hs (fun _ => hl) hB).bind fun _ c1 B1 h1 => ?_
  obtain ⟨h1,hB1⟩ := h1
  refine (guarded_setRoot DEFAULT_ROOT).bind fun _ c2 B2 h2 => ?_
  obtain ⟨h2,hr2,rfl⟩ := h2
  have hl2 : 0 < c2.lckcnt := by
    rw [h2.lckcnt, h1.lckcnt]
    exact hl
  refine ((marksKept_setRootName _).free hs (fun _ => hl2) hB1).bind fun _ c3 B3 h3 => ?_
  obtain ⟨h3,hB3⟩ := h3
  refine (MarksKept.free (marksKept_bsetbk Nat.two_pos _ _ _ _ _ _ _) hs (fun _ => h3.lckcnt ▸ hl2) hB3).bind
    fun _ c4 B4 h4 => ?_
  obtain ⟨h4,hB4⟩ := h4
  have h4 := h3.trans h4
  refine ((marksKept_bwrblk _).free hs (fun _ => h4.lckcnt ▸ hl2) hB4).bind fun ok c5 B5 h5 => ?_
  obtain ⟨h5,hB5⟩ := h5
  have h5 := h4.trans h5
  have hl5 : 0 < c5.lckcnt := h5.lckcnt ▸ hl2
  have hfail : ∀ name code arg c' B', Sound strict c' B' → Guarded strict
      (do bterr name code arg; btcrtFail) c' B' fun _ c' B' => Sound strict c' B' :=
    fun name code arg _ _ h => ((idle_bterr name code arg).sound h).bind fun _ _ _ h =>
      guarded_btcrtFail hs h
  rw [guarded_ite]
  split
  · exact hfail _ _ _ _ _ ⟨hl5.le,hB5.calm⟩
  · refine ((marksKept_brdblk Nat.two_pos _).free hs (fun _ => hl5) hB5).bind fun b c6 B6 h6 => ?_
    obtain ⟨h6,hB6⟩ := h6
    have h6 := h5.trans h6
    have hl6 : 0 < c6.lckcnt := h6.lckcnt ▸ hl2
    cases b with
    | none => exact hfail _ _ _ _ _ ⟨hl6.le,hB6.calm⟩
    | some b =>
        refine (guarded_mark hB6.calm hs (h6.root.trans hr2)).bind fun _ c7 B7 h7 => ?_
        obtain ⟨h7,hB7⟩ := h7
        have hl7 : 0 < c7.lckcnt := h7.lckcnt ▸ hl6
        have hend : ∀ c' B', Sound strict c' B' →
            Guarded strict (do leave; btgerr) c' B' fun _ c' B' => Sound strict c' B' := fun _ _ h =>
          guarded_leave_sound hs h fun _ _ h => idle_btgerr.sound h
        rw [guarded_ite]
        split
        · refine ((marksKept_freeListLoop Nat.two_pos _ _).calm hs (fun _ => hl7) hB7).bind
            fun _ c8 B8 h8 => ?_
          exact hend _ _ ⟨h8.1.lckcnt ▸ hl7.le,h8.2⟩
        · exact hend _ _ ⟨hl7.le,hB7⟩

theorem guarded_btcrtSuper (nkeys : Int) (hl : 0 < c.lckcnt) (hB : Free strict B) :
    Guarded strict (btcrtSuper nkeys) c B fun _ c' B' => Sound strict c' B' := by
  have hend : ∀ c' B', 0 < c'.lckcnt → Free strict B' → Guarded strict (do
      let ok ← bwrblk ZSUPER
      if ¬ ok then
        bterr "BTCRT" QWRSUP (.num ZSUPER)
        btcrtFail
      else btcrtDefault nkeys) c' B' fun _ c' B' => Sound strict c' B' := by
    intro c' B' hl hB
    refine ((marksKept_bwrblk _).free hs (fun _ => hl) hB).bind fun ok c1 B1 h1 => ?_
    have hl1 : 0 < c1.lckcnt := h1.1.lckcnt ▸ hl
    rw [guarded_ite]
    split
    · exact ((idle_bterr _ _ _).sound ⟨hl1.le,h1.2.calm⟩).bind fun _ _ _ h => guarded_btcrtFail hs h
    · exact guarded_btcrtDefault hs nkeys hl1 h1.2
  refine (show Guarded strict (setSuper _) c B fun _ c' B' => 0 < c'.lckcnt ∧ Free strict B' from
    guarded_modify.2 ⟨hl,hB⟩).bind fun _ c0 B0 h0 => ?_
  obtain ⟨hl,hB⟩ := h0
  refine ((marksKept_label Nat.two_pos _).free hs (fun _ => hl) hB).bind fun _ c1 B1 h1 => ?_
  have hl1 : 0 < c1.lckcnt := h1.1.lckcnt ▸ hl
  refine guarded_bind (guarded_get.2 ?_)
  refine (MarksKept.free (marksKept_bsetbk Nat.two_pos _ _ _ _ _ _ _) hs (fun _ => hl1) h1.2).bind
    fun _ c2 B2 h2 => ?_
  have hl2 : 0 < c2.lckcnt := h2.1.lckcnt ▸ hl1
  refine ((marksKept_brdblk Nat.two_pos _).free hs (fun _ => hl2) h2.2).bind fun b c3 B3 h3 => ?_
  have hl3 : 0 < c3.lckcnt := h3.1.lckcnt ▸ hl2
  cases b with
  | none => exact hend _ _ hl3 h3.2
  | some b =>
      refine ((marksKept_wr _ _ _).free hs (fun _ => hl3) h3.2).bind fun _ c4 B4 h4 => ?_
      exact hend _ _ (h4.1.lckcnt ▸ hl3) h4.2

omit hs in
theorem guarded_block_new {f : Bool → BT β} {Q : β → Ctx → Finset Int → Prop} (hl : c.lckcnt = 0)
    (hr : c.super.scroot = ZNULL)
    (hf : ∀ (ok : Bool) c' B', Free strict B' → 0 ≤ c'.lckcnt → (ok = true → 0 < c'.lckcnt) →
      Guarded strict (f ok) c' B' Q) : Guarded strict (block >>= f) c ∅ Q := by
  refine guarded_bind (guarded_bind (guarded_get.2 ?_))
  rw [if_neg (by omega)]
  refine guarded_bind (guarded_ask ⟨trivial,fun ok _ => ?_⟩)
  dsimp only
  rw [guarded_ite]
  split
  · rw [if_neg fun h => h.2 hr]
    refine guarded_bind (guarded_modify.2 (guarded_pure.2 (hf _ _ _ (fun _ => rfl) ?_ fun _ => ?_)))
    · exact Int.zero_le_ofNat 1
    · exact Int.one_pos
  · exact guarded_pure.2 (hf _ _ _ (fun _ => rfl) hl.ge fun h => by simp at h)

theorem guarded_btcrt (nkeys : Int) (shared : Bool) (h : Sound strict c B) :
    Guarded strict (btcrt nkeys shared) c B fun _ c' B' => Sound strict c' B' := by
  refine guarded_bind (guarded_modify.2 (guarded_bind (guarded_ask ⟨trivial,fun ok _ => ?_⟩)))
  have h : Sound strict c.clear B := h.same (.clear c)
  rw [guarded_ite]
  split
  · exact ((idle_bterr _ _ _).bind fun _ => idle_btgerr).sound h
  · refine guarded_bind (guarded_modify.2 (guarded_bind (guarded_bind (guarded_modify.2
      (guarded_bind (guarded_ask ⟨trivial,fun _ _ => guarded_modify.2 (guarded_bind
        (guarded_modify.2 ?_))⟩))))))
    refine guarded_block_new rfl rfl fun ok c2 B2 hB2 hl2 hok => ?_
    rw [guarded_ite]
    split
    · exact ((idle_bterr _ _ _).sound ⟨hl2,hB2.calm⟩).bind fun _ _ _ h =>
        guarded_close_sound idle_btgerr h
    · rename_i hok'
      exact guarded_btcrtSuper hs nkeys (hok (not_not.1 hok')) hB2

end Sound

end Btlib
