import Btlib.Cache.Runs

namespace Btlib

variable [Build] {α β σ : Type} {h : Prog.Machine Op Res σ} {E : Op → σ → Prop} {strict : Prop}
  {R : σ → Finset Int × Option Int → Prop} {c c' : Ctx} {s : σ}

section Counted

-- The lock count is another one than before just where `P` holds.
def Counted (P : Prop) (c c' : Ctx) : Prop := 0 ≤ c'.lckcnt ∧ (c'.lckcnt ≠ c.lckcnt ↔ P)

variable {P : Prop}

omit [Build] in
theorem Steady.counted (h : Steady c c') (h0 : 0 ≤ c.lckcnt) (hP : ¬ P) : Counted P c c' :=
  ⟨h.lckcnt ▸ h0,iff_of_false (fun hn => hn h.lckcnt) hP⟩

omit [Build] in
theorem Steady.counted_unlock (h : Steady c.unlock c') (h0 : 0 ≤ c.lckcnt)
    (hP : P ↔ c.shared = true ∧ 0 < c.lckcnt) : Counted P c c' := by
  have hl := h.lckcnt
  simp only [Ctx.unlock] at hl
  unfold Counted
  rw [hP, hl]
  split <;> constructor <;> grind

omit [Build] in
theorem Steady.counted_relock (h : Steady (c.relock 1) c') (h0 : 0 ≤ c.lckcnt)
    (hP : P ↔ c.shared = true) : Counted P c c' := by
  have hl := h.lckcnt
  simp only [Ctx.relock] at hl
  unfold Counted
  rw [hP, hl]
  split <;> constructor <;> grind

omit [Build] in
theorem Steady.counted_unlock_if {p : Prop} [Decidable p] (h : Steady (if p then c.unlock else c) c')
    (h0 : 0 ≤ c.lckcnt) : Counted (p ∧ c.shared = true ∧ 0 < c.lckcnt) c c' := by
  split at h
  · rename_i hp
    exact h.counted_unlock h0 (and_iff_right hp)
  · rename_i hp
    exact h.counted h0 fun h => hp h.1

omit [Build] in
theorem Steady.counted_unlock_unless {p : Prop} [Decidable p]
    (h : Steady (if p then c else c.unlock) c') (h0 : 0 ≤ c.lckcnt) :
    Counted (¬ p ∧ c.shared = true ∧ 0 < c.lckcnt) c c' := by
  split at h
  · rename_i hp
    exact h.counted h0 fun h => h.1 hp
  · rename_i hp
    exact h.counted_unlock h0 (and_iff_right hp)

end Counted

section Setup

-- The last found position is an exact one.
def Current (c : Ctx) : Prop := ¬ (c.lf.lfblk = ZNULL ∨ c.lf.lfpos = ZNULL ∨ ¬ c.lf.lfexct)

-- The search for a record begins.
def Enters (h : Prog.Machine Op Res σ) (c : Ctx) (s : σ) (key : Option Key) : Prop :=
  c.super.scroot ≠ ZSUPER ∧
    match key with
    | none => 0 < c.lckcnt ∧ Current c
    | some _ => c.shared = true → Gets h c s

variable (hf : Prog.Follows (busy strict) h R E) (hs : strict → 3 ≤ ZMXBLK) (h0 : 0 ≤ c.lckcnt)
include hf hs h0

theorem runs_setupCurrent (fn : String) (hB : Settled strict R c s) :
    Runs h E (setupCurrent fn) c s fun _ c' s' => Settled strict R c' s' ∧
      ((0 < c.lckcnt ∧ Current c) ∧ Same (c.relock 1) c' ∨
        ¬ (0 < c.lckcnt ∧ Current c) ∧ Same c c' ∧ c'.err.qerror ≠ 0) := by
  have hlook : MarksKept strict 2 (do
      let r ← bsrhlf
      if r.result ≠ 0 then bterr fn QBADCTXT .none
      pure r.val) := by
    with_reducible repeat' first | refine .bind ?_ fun _ => ?_ | refine .ite ?_ ?_ | split
    all_goals simp
  refine runs_bind.2 (runs_get.2 ?_)
  rw [runs_ite]
  split
  · rename_i hn
    refine runs_bind.2 (runs_bind.2 (runs_get.2 ?_))
    dsimp only
    rw [runs_ite]
    split
    · rename_i hcur
      refine (runs_bterr hf _ _ _ (by decide) hB).bind fun _ c1 s1 h1 => runs_pure.2 (runs_pure.2 ?_)
      exact ⟨h1.2,Or.inr ⟨fun h => h.2 hcur,h1.1⟩⟩
    · rename_i hcur
      refine runs_pure.2 ?_
      rw [runs_ite, if_pos rfl]
      rw [runs_ite]
      split
      · rename_i hsh
        have hlock : c.relock 1 = { c with lckcnt := c.lckcnt + 1 } := by rw [Ctx.relock, if_pos hsh]
        refine (runs_block hf hs h0 hB).bind fun r c1 s1 h1 => ?_
        obtain ⟨hB1,⟨-,h1,-⟩ | ⟨-,-,h1,-⟩⟩ := h1
        · have hc1 : Held c1 := .relock_same h0 (hlock ▸ h1)
          refine (runs_marksKept hf hlook hs hc1 hB1).mono fun _ c2 s2 h2 => ⟨h2.2,Or.inl ⟨⟨hn,hcur⟩,?_⟩⟩
          exact (hlock ▸ h1).trans h2.1
        · omega
      · rename_i hsh
        have hlock : c.relock 1 = c := by rw [Ctx.relock, if_neg hsh]
        refine (runs_marksKept hf hlook hs (fun h => absurd h hsh) hB).mono fun _ c2 s2 h2 => ?_
        exact ⟨h2.2,Or.inl ⟨⟨hn,hcur⟩,hlock.symm ▸ h2.1⟩⟩
  · rename_i hn
    refine (runs_bterr hf _ _ _ (by decide) hB).bind fun _ c1 s1 h1 => runs_pure.2 ?_
    exact ⟨h1.2,Or.inr ⟨fun h => hn h.1,h1.1⟩⟩

theorem runs_setupNamed (fn : String) (key : Key) (hB : Settled strict R c s) :
    Runs h E (setupNamed fn key) c s fun _ c' s' => Settled strict R c' s' ∧
      ((c.shared = true → Gets h c s) ∧ Same (c.relock 1) c' ∨
        ¬ (c.shared = true → Gets h c s) ∧ Same c c' ∧ c'.err.qerror ≠ 0) := by
  have hlook : MarksKept strict 2 (do
      let r ← bfndky key
      let type ← bgtinf (cnvdraddr r.2).1 .ZBTYPE
      if type ≠ ZDATA then bterr fn QNOTDA .none
      pure r.2) := by
    with_reducible repeat' first | refine .bind ?_ fun _ => ?_ | refine .ite ?_ ?_ | split
    all_goals simp
  refine (runs_enter hf hs h0 fn hB).bind fun r c1 s1 h1 => ?_
  obtain ⟨hB1,⟨rfl,h1,hg⟩ | ⟨rfl,h1,he,hsh,hn,hg⟩⟩ := h1
  · exact (runs_marksKept hf hlook hs (.relock_same h0 h1) hB1).mono fun _ _ _ h2 =>
      ⟨h2.2,Or.inl ⟨hg,h1.trans h2.1⟩⟩
  · exact runs_pure.2 ⟨hB1,Or.inr ⟨fun h => hg (h hsh),h1,he⟩⟩

theorem runs_setup (fn : String) (key : Option Key) (hB : Settled strict R c s) :
    Runs h E (setup fn key) c s fun r c' s' => Settled strict R c' s' ∧
      (Enters h c s key ∧ Same (c.relock 1) c' ∨ ¬ Enters h c s key ∧ Same c c' ∧ r.1 ≠ 0) := by
  have hend : ∀ {P : Prop} (a : Int) c1 s1, Settled strict R c1 s1 →
      (P ∧ Same (c.relock 1) c1 ∨ ¬ P ∧ Same c c1 ∧ c1.err.qerror ≠ 0) →
      Runs h E (do let status ← btgerr; pure (status, a)) c1 s1 fun r c' s' =>
        Settled strict R c' s' ∧ (P ∧ Same (c.relock 1) c' ∨ ¬ P ∧ Same c c' ∧ r.1 ≠ 0) :=
    fun _ _ _ hB h => ⟨hB,h⟩
  refine runs_bind.2 (runs_bind.2 (runs_bind.2 (runs_get.2 (runs_pure.2 ?_))))
  rw [runs_ite]
  split
  · rename_i hd
    have hd : ¬ (c.super.scroot ≠ ZSUPER) := by simpa using hd
    refine (runs_bterr hf _ _ _ (by decide) hB).bind fun _ c1 s1 h1 => runs_pure.2 ?_
    exact hend 0 c1 s1 h1.2 (Or.inr ⟨fun h => hd h.1,h1.1⟩)
  · rename_i hd
    have hd : c.super.scroot ≠ ZSUPER := by simpa using hd
    cases key with
    | none =>
        refine (runs_setupCurrent hf hs h0 fn hB).mono fun a c1 s1 h1 => hend a c1 s1 h1.1 ?_
        simpa only [Enters, hd, ne_eq, not_false_eq_true, true_and] using h1.2
    | some key =>
        refine (runs_setupNamed hf hs h0 fn key hB).mono fun a c1 s1 h1 => hend a c1 s1 h1.1 ?_
        simpa only [Enters, hd, ne_eq, not_false_eq_true, true_and] using h1.2

end Setup

section Calls

-- A call begins without an error.
def Ctx.clear (c : Ctx) : Ctx := { c with err := ⟨"", 0, .none⟩ }

omit [Build] in
theorem Same.clear (c : Ctx) : Same c c.clear := ⟨rfl,rfl,rfl,rfl,rfl⟩

omit [Build] in
theorem Steady.of_clear (h : Steady c.clear c') : Steady c c' := ⟨h.isopen,h.shared,h.lckcnt,h.mode⟩

omit [Build] in
theorem runs_api {fn : String} {bad : Int → α} {body : BT α} {Q : α → Ctx → σ → Prop}
    (ho : c.isopen = true) (hbody : Runs h E body c.clear s Q) : Runs h E (api fn bad body) c s Q := by
  refine runs_bind.2 (runs_modify.2 (runs_bind.2 (runs_bind.2 (runs_get.2 ?_))))
  rw [runs_ite, if_pos ho]
  refine runs_pure.2 ?_
  rw [if_neg (not_not.2 rfl)]
  exact hbody

omit [Build] in
theorem runs_errOf {body : BT Unit} {Q : Ctx → σ → Prop} (hbody : Runs h E body c s fun _ c s => Q c s) :
    Runs h E (errOf body) c s fun _ c s => Q c s :=
  runs_bind.2 (hbody.mono fun _ _ _ h => runs_bind.2 (runs_get.2 (runs_pure.2 h)))

omit [Build] in
theorem runs_withErr {body : BT α} {Q : Ctx → σ → Prop} (hbody : Runs h E body c s fun _ c s => Q c s) :
    Runs h E (withErr body) c s fun _ c s => Q c s :=
  runs_bind.2 (hbody.mono fun _ _ _ h =>
    runs_bind.2 (runs_bind.2 (runs_get.2 (runs_pure.2 (runs_pure.2 h)))))

-- The search for a record fails.
def SetupFails (h : Prog.Machine Op Res σ) (c : Ctx) (s : σ) (fn : String) (key : Option Key) : Prop :=
  ¬ Runs h (fun _ _ => True) (setup fn key) c s fun r _ _ => r.1 = 0

variable (hf : Prog.Follows (busy strict) h R E) (hs : strict → 3 ≤ ZMXBLK) (h0 : 0 ≤ c.lckcnt)
include hf hs h0

omit hs in
theorem runs_fail {P : Prop} {x : BT α} (name : String) (code : Int) (arg : Arg) (hx : Idle strict x)
    (hB : Settled strict R c s) (hP : ¬ P) :
    Runs h E (do bterr name code arg; x) c s fun _ c' s' => Counted P c c' ∧ Settled strict R c' s' :=
  (runs_idle hf ((idle_bterr name code arg).bind fun _ => hx) hB).mono fun _ _ _ h =>
    ⟨h.1.steady.counted h0 hP,h.2⟩

theorem runs_unlocks {P : Prop} {x : BT α} {c1 : Ctx} (hx : Idle strict x) (hB : Settled strict R c1 s)
    (hc1 : Steady (c.relock 1) c1) (hP : ¬ P) :
    Runs h E (do leave; x) c1 s fun _ c' s' => Counted P c c' ∧ Settled strict R c' s' := by
  have h1 : 0 ≤ c1.lckcnt := hc1.lckcnt ▸ Ctx.lckcnt_relock_nonneg h0
  refine (runs_leave hf hs h1 hB).bind fun _ c2 s2 h2 => ?_
  refine (runs_idle hf hx h2.2).mono fun _ c3 s3 h3 => ⟨?_,h3.2⟩
  have := (hc1.unlock.trans h2.1.steady).trans h3.1.steady
  rw [Ctx.unlock_relock h0] at this
  exact this.counted h0 hP

theorem runs_stray {P : Prop} {x : BT α} {c1 : Ctx} (hx : Idle strict x) (hB : Settled strict R c1 s)
    (hc1 : Steady c c1) (hP : P ↔ c.shared = true ∧ 0 < c.lckcnt) :
    Runs h E (do leave; x) c1 s fun _ c' s' => Counted P c c' ∧ Settled strict R c' s' := by
  refine (runs_leave hf hs (hc1.lckcnt ▸ h0) hB).bind fun _ c2 s2 h2 => ?_
  refine (runs_idle hf hx h2.2).mono fun _ c3 s3 h3 => ⟨?_,h3.2⟩
  exact ((hc1.unlock.trans h2.1.steady).trans h3.1.steady).counted_unlock h0 hP

theorem runs_btupd (key : Option Key) (data : List Byte) (dsize : Int) (ho : c.isopen = true)
    (hB : Settled strict R c s) :
    Runs h E (btupd key data dsize) c s fun _ c' s' => Counted (0 ≤ dsize ∧ c.super.scroot ≠ ZSUPER ∧
      c.super.smode = 0 ∧ key = none ∧ c.shared = true ∧ 0 < c.lckcnt ∧ ¬ Current c) c c' ∧
        Settled strict R c' s' := by
  refine runs_api ho ?_
  have hB := hB.same (Same.clear c)
  have h0 : 0 ≤ c.clear.lckcnt := h0
  rw [runs_ite]
  split
  · rename_i hd
    exact runs_fail (c := c.clear) hf h0 _ _ _ (idle_pure _) hB fun h => by omega
  · rename_i hd
    refine runs_bind.2 (runs_bind.2 (runs_get.2 (runs_pure.2 (runs_bind.2 (runs_get.2 ?_)))))
    dsimp only
    rw [runs_ite]
    split
    · rename_i hr
      exact runs_fail (c := c.clear) hf h0 _ _ _ idle_btgerr hB fun h => hr (decide_eq_true h.2.1)
    · rename_i hr
      have hr : c.super.scroot ≠ ZSUPER := of_decide_eq_true (not_not.1 hr)
      rw [runs_ite]
      split
      · rename_i hw
        exact runs_fail (c := c.clear) hf h0 _ _ _ idle_btgerr hB fun h => hw h.2.2.1
      · rename_i hw
        have hw : c.super.smode = 0 := not_not.1 hw
        refine (runs_setup hf hs h0 "BTUPD" key hB).bind fun r c1 s1 h1 => ?_
        obtain ⟨hB1,⟨hen,h1⟩ | ⟨hen,h1,hr1⟩⟩ := h1
        · have hP : ¬ (0 ≤ dsize ∧ c.super.scroot ≠ ZSUPER ∧ c.super.smode = 0 ∧ key = none ∧
              c.shared = true ∧ 0 < c.lckcnt ∧ ¬ Current c) := by
            rintro ⟨-,-,-,rfl,-,-,hcur⟩
            exact hcur hen.2.2
          rw [runs_ite]
          split
          · refine (runs_marksKept hf (marksKept_bupddt Nat.two_pos _ _) hs (.relock_same h0 h1) hB1).bind
              fun _ c2 s2 h2 => ?_
            exact runs_unlocks (c := c.clear) hf hs h0 idle_btgerr h2.2 (h1.trans h2.1).steady hP
          · exact runs_unlocks (c := c.clear) hf hs h0 idle_btgerr hB1 h1.steady hP
        · rw [runs_ite, if_neg hr1]
          refine runs_stray (c := c.clear) hf hs h0 idle_btgerr hB1 h1.steady ?_
          refine ⟨fun h => ⟨h.2.2.2.2.1,h.2.2.2.2.2.1⟩,fun h => ?_⟩
          cases key with
          | none =>
              exact ⟨by omega,hr,hw,rfl,h.1,h.2,fun hcur => hen ⟨hr,h.2,hcur⟩⟩
          | some key => exact absurd ⟨hr,fun _ => Or.inl h.2⟩ hen

-- The lock `setup` took, kept where it fails.
def Keeping (h : Prog.Machine Op Res σ) (c : Ctx) (s : σ) (fn : String) (key : Option Key) : Prop :=
  c.super.smode = 0 ∧ c.shared = true ∧ Enters h c s key ∧ SetupFails h c s fn key

theorem runs_setup_then (fn : String) (key : Option Key) {g : Int × Int → BT β} {x : BT β}
    (hB : Settled strict R c s) (hw : c.super.smode = 0)
    (hg : ∀ r c1 s1, Same (c.relock 1) c1 → Settled strict R c1 s1 → ¬ Keeping h c s fn key →
      Runs h E (g r) c1 s1 fun _ c' s' => Counted (Keeping h c s fn key) c c' ∧ Settled strict R c' s')
    (hx : Idle strict x) : Runs h E (do let r ← setup fn key; if r.1 = 0 then g r else x) c s
      fun _ c' s' => Counted (Keeping h c s fn key) c c' ∧ Settled strict R c' s' := by
  refine (runs_setup hf hs h0 fn key hB).returns.bind fun r c1 s1 h1 => ?_
  obtain ⟨⟨hB1,h1⟩,hrun⟩ := h1
  have hfails : SetupFails h c s fn key ↔ r.1 ≠ 0 := not_congr (runs_of_done hrun)
  rw [runs_ite]
  split
  · rename_i hr
    obtain ⟨-,h1⟩ | ⟨-,-,hr1⟩ := h1
    · exact hg r c1 s1 h1 hB1 fun h => hfails.1 h.2.2.2 hr
    · exact absurd hr hr1
  · rename_i hr
    refine (runs_idle hf hx hB1).mono fun _ c2 s2 h2 => ⟨?_,h2.2⟩
    obtain ⟨hen,h1⟩ | ⟨hen,h1,-⟩ := h1
    · refine (h1.trans h2.1).steady.counted_relock h0 ?_
      exact ⟨fun h => h.2.1,fun h => ⟨hw,h,hen,hfails.2 hr⟩⟩
    · exact (h1.trans h2.1).steady.counted h0 fun h => hen h.2.2.1

omit h0 in
theorem runs_btdelRecord (draddr : Int) (hc : Held c) (hB : Settled strict R c s)
    (hw : c.super.smode = 0) :
    Runs h E (btdelRecord draddr) c s fun _ c' s' => Same c c' ∧ Settled strict R c' s' := by
  refine (runs_marksKept hf (marksKept_bdeldt Nat.two_pos _) hs hc hB).bind fun status c1 s1 h1 => ?_
  rw [runs_ite]
  split
  · refine runs_bind.2 ((runs_guarded hf h1.2 fun B hB => ?_).mono fun _ c2 s2 h2 =>
      runs_pure.2 (⟨h1.1.trans h2.1,h2.2⟩))
    exact (guarded_modifyKey Nat.one_lt_two "BDELKY" none (marksKept_bdelk1 Nat.one_lt_two _) (hc.same h1.1)
      (hB.spare hs) (h1.1.mode.trans hw)).mono fun _ _ _ h => ⟨h.1,hB.same h.1 h.2⟩
  · exact runs_pure.2 h1

theorem runs_btdel (key : Option Key) (ho : c.isopen = true) (hB : Settled strict R c s) :
    Runs h E (btdel key) c s fun _ c' s' =>
      Counted (Keeping h c.clear s "BTDEL" key) c c' ∧ Settled strict R c' s' := by
  refine runs_api ho (runs_errOf (runs_bind.2 (runs_get.2 ?_)))
  have hB := hB.same (Same.clear c)
  have h0 : 0 ≤ c.clear.lckcnt := h0
  rw [runs_ite]
  split
  · rename_i hw
    have := runs_fail (c := c.clear) (P := Keeping h c.clear s "BTDEL" key) hf h0 "BTINS" QNOWRT .none
      (idle_pure ()) hB fun h => hw h.1
    rw [bind_pure_unit] at this
    exact this
  · rename_i hw
    have hw := not_not.1 hw
    refine runs_setup_then (c := c.clear) hf hs h0 "BTDEL" key hB hw (fun r c1 s1 h1 hB1 hP => ?_)
      (idle_pure ())
    refine (runs_btdelRecord hf hs r.2 (.relock_same h0 h1) hB1
      (h1.mode.trans hw)).bind fun _ c2 s2 h2 => ?_
    have := runs_unlocks (c := c.clear) hf hs h0 (idle_pure ()) h2.2 (h1.trans h2.1).steady hP
    rw [bind_pure_unit] at this
    exact this

theorem runs_btrecs (key : Option Key) (ho : c.isopen = true) (hB : Settled strict R c s) :
    Runs h E (btrecs key) c s fun _ c' s' =>
      Counted (Keeping h c.clear s "BTRECS" key) c c' ∧ Settled strict R c' s' := by
  refine runs_api ho (runs_withErr (runs_bind.2 (runs_get.2 ?_)))
  have hB := hB.same (Same.clear c)
  have h0 : 0 ≤ c.clear.lckcnt := h0
  rw [runs_ite]
  split
  · rename_i hw
    exact runs_fail (c := c.clear) hf h0 "BTINS" QNOWRT .none (idle_pure 0) hB fun h => hw h.1
  · rename_i hw
    refine runs_setup_then (c := c.clear) hf hs h0 "BTRECS" key hB (not_not.1 hw)
      (fun r c1 s1 h1 hB1 hP => ?_) (idle_pure 0)
    refine (runs_marksKept hf (marksKept_brecsz Nat.two_pos _) hs (.relock_same h0 h1) hB1).bind
      fun _ c2 s2 h2 => ?_
    exact runs_unlocks (c := c.clear) hf hs h0 (idle_pure _) h2.2 (h1.trans h2.1).steady hP

end Calls

end Btlib
