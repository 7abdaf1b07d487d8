import Btlib.Cache.Records

namespace Btlib

variable [Build] {α β σ : Type} {h : Prog.Machine Op Res σ} {E : Op → σ → Prop} {strict : Prop}
  {R : σ → Finset Int × Option Int → Prop} {c c' : Ctx} {s : σ}

section Root

-- The path begins with two words that stand for no block.
def Ctx.pathless (c : Ctx) : Ctx :=
  { c with lf := ⟨[], ZNULL, ZNULL, false, ZNULL⟩, stk := [ZNULL, ZNULL] }

omit [Build] in
theorem runs_pathless {x : BT α} {Q : α → Ctx → σ → Prop} :
    Runs h E (do
      bclrlf
      bstkin
      bpush ZNULL
      bpush ZNULL
      x) c s Q ↔ Runs h E x c.pathless s Q := by
  simp only [runs_bind, bclrlf, bstkin, setLf, setStk, runs_modify, bpush, runs_get, runs_ite]
  rfl

def Ctx.atRoot (c : Ctx) : Ctx :=
  { c with lf := ⟨[], c.super.scroot, ZNULL, false, ZNULL⟩, stk := [ZNULL, ZNULL] }

omit [Build] in
theorem Same.atRoot (c : Ctx) : Same c c.atRoot := ⟨rfl,rfl,rfl,rfl,rfl⟩

omit [Build] in
theorem runs_btthresh (n : Int) (ho : c.isopen = true) (hB : Settled strict R c s) :
    Runs h E (btthresh n) c s fun _ c' s' => Steady c c' ∧ Settled strict R c' s' := by
  refine runs_api ho (runs_bind.2 (runs_modify.2 (runs_pure.2 ⟨⟨rfl,rfl,rfl,rfl⟩,?_⟩)))
  exact hB.same ⟨rfl,rfl,rfl,rfl,rfl⟩

end Root

section Selects

variable (hf : Prog.Follows (busy strict) h R E) (hs : strict → 3 ≤ ZMXBLK) (h0 : 0 ≤ c.lckcnt)
include hf hs h0

-- Both walks take the lock, shared or not, unless they are made on the superroot.
theorem runs_btselWalk (fn : String) {step : BT (Int × Option (Key × Int))} (dsize : Int)
    (hstep : MarksKept strict 2 step) (hB : Settled strict R c s) :
    Runs h E (btselWalk fn step dsize) c s fun _ c' s' => Settled strict R c' s' ∧
      ((c.super.scroot = ZSUPER ∨ ¬ Gets h c s ∧ c.lckcnt = 0) ∧ Same c c' ∨
        (c.super.scroot ≠ ZSUPER ∧ Gets h c s) ∧ Same { c with lckcnt := c.lckcnt + 1 } c') := by
  refine runs_bind.2 (runs_bind.2 (runs_get.2 (runs_pure.2 ?_)))
  rw [runs_ite]
  split
  · rename_i hd
    have hd : c.super.scroot = ZSUPER := not_not.1 (of_decide_eq_false (Bool.not_eq_true _ ▸ hd))
    exact (runs_idle hf ((idle_bterr _ _ _).bind fun _ => idle_pure _) hB).mono fun _ _ _ h =>
      ⟨h.2,Or.inl ⟨Or.inl hd,h.1⟩⟩
  · rename_i hd
    have hd : c.super.scroot ≠ ZSUPER := of_decide_eq_true (not_not.1 hd)
    refine (runs_block hf hs h0 hB).bind fun r c1 s1 h1 => ?_
    obtain ⟨hB1,⟨rfl,h1,hg⟩ | ⟨rfl,h1,hn,hg⟩⟩ := h1
    · have hc1 : Held c1 := fun _ => by
        have : c1.lckcnt = c.lckcnt + 1 := h1.lckcnt
        omega
      rw [runs_ite, if_neg (by decide)]
      refine (runs_marksKept hf ?_ hs hc1 hB1).mono fun _ _ _ h2 => ⟨h2.2,Or.inr ⟨⟨hd,hg⟩,h1.trans h2.1⟩⟩
      refine .bind hstep fun r => ?_
      split
      · exact .bind (marksKept_bseldt Nat.two_pos _ _) fun _ => .pure _
      · exact .pure _
    · rw [runs_ite, if_pos (by decide)]
      exact (runs_idle hf ((idle_bterr _ _ _).bind fun _ => idle_pure _) hB1).mono fun _ _ _ h =>
        ⟨h.2,Or.inl ⟨Or.inr ⟨hg,hn⟩,h1.trans h.1⟩⟩

-- `btseln` unlocks a shared handle only, and that also where it took no lock.
def StrayNext (h : Prog.Machine Op Res σ) (c : Ctx) (s : σ) : Prop :=
  if c.super.scroot = ZSUPER then c.shared = true ∧ 0 < c.lckcnt else c.shared = false ∧ Gets h c s

theorem runs_btseln (dsize : Int) (ho : c.isopen = true) (hB : Settled strict R c s) :
    Runs h E (btseln dsize) c s fun _ c' s' =>
      Counted (StrayNext h c.clear s) c c' ∧ Settled strict R c' s' := by
  refine runs_api ho (runs_withErr ?_)
  have hB := hB.same (Same.clear c)
  have h0 : 0 ≤ c.clear.lckcnt := h0
  refine (runs_btselWalk hf hs h0 "BTSELN" dsize (marksKept_bnxtky Nat.one_lt_two) hB).bind
    fun r c1 s1 h1 => ?_
  obtain ⟨hB1,⟨hno,h1⟩ | ⟨hgo,h1⟩⟩ := h1
  · refine runs_stray (c := c.clear) hf hs h0 (idle_pure r) hB1 h1.steady ?_
    unfold StrayNext
    split
    · rfl
    · rename_i hr
      obtain hno | ⟨hg,hn⟩ := hno
      · exact absurd hno hr
      · exact iff_of_false (fun h => hg h.2) fun h => by omega
  · have hl1 : c1.lckcnt = c.clear.lckcnt + 1 := h1.lckcnt
    refine (runs_leave hf hs (c := c1) (by omega) hB1).bind fun _ c2 s2 h2 =>
      runs_pure.2 ⟨?_,h2.2⟩
    have hl : c2.lckcnt = c1.unlock.lckcnt := h2.1.lckcnt
    have hsh : c1.shared = c.clear.shared := h1.shared
    simp only [Ctx.unlock, hl1, hsh] at hl
    unfold Counted StrayNext
    rw [if_neg hgo.1]
    change 0 ≤ c2.lckcnt ∧ (c2.lckcnt ≠ c.clear.lckcnt ↔ c.clear.shared = false ∧ Gets h c.clear s)
    cases hshared : c.clear.shared <;> simp only [hshared] at hl
    · rw [if_neg (by simp)] at hl
      exact ⟨by omega,iff_of_true (by omega) ⟨rfl,hgo.2⟩⟩
    · rw [if_pos ⟨trivial,by omega⟩] at hl
      exact ⟨by omega,iff_of_false (by omega) fun h => by simp at h⟩

theorem runs_btselp (dsize : Int) (ho : c.isopen = true) (hB : Settled strict R c s) :
    Runs h E (btselp dsize) c s fun _ c' s' =>
      Counted (c.super.scroot = ZSUPER ∧ 0 < c.lckcnt) c c' ∧ Settled strict R c' s' := by
  refine runs_api ho (runs_withErr ?_)
  have hB := hB.same (Same.clear c)
  have h0 : 0 ≤ c.clear.lckcnt := h0
  refine (runs_btselWalk hf hs h0 "BTSELP" dsize (marksKept_bprvky Nat.one_lt_two) hB).bind
    fun r c1 s1 h1 => ?_
  have hc1 : 0 ≤ c1.lckcnt := by
    obtain ⟨-,⟨-,h1⟩ | ⟨-,h1⟩⟩ := h1
    · exact h1.lckcnt ▸ h0
    · have : c1.lckcnt = c.clear.lckcnt + 1 := h1.lckcnt
      omega
  refine (runs_bulock hf hs hc1 h1.1).bind fun _ c2 s2 h2 => runs_pure.2 ⟨?_,h2.2⟩
  have hl : c2.lckcnt = if 0 < c1.lckcnt then c1.lckcnt - 1 else c1.lckcnt := h2.1.lckcnt
  unfold Counted
  change 0 ≤ c2.lckcnt ∧ (c2.lckcnt ≠ c.clear.lckcnt ↔ c.clear.super.scroot = ZSUPER ∧ 0 < c.clear.lckcnt)
  obtain ⟨-,⟨hno,h1⟩ | ⟨hgo,h1⟩⟩ := h1
  · rw [h1.lckcnt] at hl
    split at hl
    · have hr : c.clear.super.scroot = ZSUPER := hno.resolve_right fun h => by omega
      exact ⟨by omega,iff_of_true (by omega) ⟨hr,by assumption⟩⟩
    · exact ⟨by omega,iff_of_false (by omega) fun h => by omega⟩
  · have hl1 : c1.lckcnt = c.clear.lckcnt + 1 := h1.lckcnt
    rw [if_pos (by omega)] at hl
    exact ⟨by omega,iff_of_false (by omega) fun h => hgo.1 h.1⟩

-- The current root, read once the lock is had, holds no keys.
def EmptyRoot (h : Prog.Machine Op Res σ) (c : Ctx) (s : σ) : Prop :=
  ¬ Runs h (fun _ _ => True) (do
      let _ ← enter "BTPOS"
      bclrlf
      bstkin
      bpush ZNULL
      bpush ZNULL
      let root := (← get).super.scroot
      setLf fun lf => { lf with lfblk := root }
      bgtinf root .ZNKEYS) c s fun nkeys _ _ => nkeys ≠ 0

theorem runs_btpos (pos : Int) (ho : c.isopen = true) (hB : Settled strict R c s) :
    Runs h E (btpos pos) c s fun _ c' s' =>
      Counted (pos = ZEND ∧ c.shared = true ∧ Gets h c s ∧ EmptyRoot h c.clear s) c c' ∧
        Settled strict R c' s' := by
  refine runs_api ho ?_
  have hB := hB.same (Same.clear c)
  have h0 : 0 ≤ c.clear.lckcnt := h0
  refine (runs_enter hf hs h0 "BTPOS" hB).returns.bind fun r c1 s1 h1 => ?_
  obtain ⟨⟨hB1,⟨rfl,h1,hg⟩ | ⟨rfl,h1,-,hsh,hn,hg⟩⟩,hrun⟩ := h1
  · rw [runs_ite, if_pos rfl]
    have hc1 : Held c1.atRoot := (Held.relock_same h0 h1).same (.atRoot c1)
    have hB1 := hB1.same (Same.atRoot c1)
    have h1 := h1.trans (.atRoot c1)
    have hempty : EmptyRoot h c.clear s ↔ ¬ Runs h (fun _ _ => True) (bgtinf c1.super.scroot .ZNKEYS)
        c1.atRoot s1 fun nkeys _ _ => nkeys ≠ 0 := by
      unfold EmptyRoot
      rw [runs_bind, runs_of_done hrun, runs_pathless, runs_bind, runs_get, runs_bind]
      rfl
    unfold btposAt
    rw [runs_pathless, runs_bind, runs_get, runs_bind]
    refine runs_modify.2 ?_
    change Runs h E _ c1.atRoot s1 _
    rw [runs_ite]
    split
    · rename_i hp
      refine (runs_marksKept hf ?_ hs hc1 hB1).bind fun _ c2 s2 h2 => ?_
      · exact .setLf _
      refine (runs_marksKept hf (marksKept_bleaf Nat.two_pos 0) hs (hc1.same h2.1) h2.2).bind
        fun _ c3 s3 h3 => ?_
      refine runs_unlocks (c := c.clear) hf hs h0 idle_btgerr h3.2 ((h1.trans h2.1).trans h3.1).steady ?_
      rw [hp]
      exact fun h => absurd h.1 (by decide)
    · rw [runs_ite]
      split
      · rename_i hp
        refine (runs_marksKept hf (marksKept_bgtinf Nat.two_pos _ _) hs hc1 hB1).returns.bind fun nkeys c2 s2 h2 => ?_
        obtain ⟨⟨h2,hB2⟩,hrun⟩ := h2
        have hempty := hempty.trans (not_congr (runs_of_done hrun))
        refine (runs_marksKept hf (.setLf _) hs (hc1.same h2) hB2).bind fun _ c3 s3 h3 => ?_
        have h2 := h1.trans (h2.trans h3.1)
        rw [runs_ite]
        split
        · rename_i hz
          refine runs_pure.2 ⟨h2.steady.counted_relock h0 ?_,h3.2⟩
          exact ⟨fun h => h.2.1,fun h => ⟨hp,h,hg h,hempty.2 (not_not.2 hz)⟩⟩
        · rename_i hz
          refine (runs_marksKept hf (marksKept_btposEnd Nat.two_pos) hs ?_ h3.2).bind fun _ c4 s4 h4 => ?_
          · exact .relock_same h0 h2
          refine runs_unlocks (c := c.clear) hf hs h0 idle_btgerr h4.2 (h2.trans h4.1).steady ?_
          exact fun h => hempty.1 h.2.2.2 hz
      · rename_i hp
        exact runs_unlocks (c := c.clear) hf hs h0 idle_btgerr hB1 h1.steady fun h => hp h.1
  · rw [runs_ite, if_neg (by decide)]
    refine (runs_idle hf idle_btgerr hB1).mono fun _ c2 s2 h2 => ⟨?_,h2.2⟩
    exact (h1.trans h2.1).steady.counted h0 fun h => hg h.2.2.1

-- The lock is granted, but what is read again with it is in error.
def LockFails (h : Prog.Machine Op Res σ) (c : Ctx) (s : σ) : Prop :=
  ¬ Runs h (fun _ _ => True) block c s fun _ c' _ => c'.err.qerror = 0

theorem runs_btlock (ho : c.isopen = true) (hB : Settled strict R c s) :
    Runs h E btlock c s fun r c' s' => (0 ≤ c'.lckcnt ∧
      (c'.lckcnt = (if c.shared = true ∧ r = 0 then c.lckcnt + 1 else c.lckcnt) ↔
        ¬ (c.shared = true ∧ Gets h c s ∧ LockFails h c.clear s))) ∧ Settled strict R c' s' := by
  refine runs_api ho (runs_bind.2 (runs_bind.2 (runs_get.2 ?_)))
  have hB := hB.same (Same.clear c)
  have h0 : 0 ≤ c.clear.lckcnt := h0
  rw [runs_ite]
  split
  · rename_i hsh
    have hsh : c.shared = true := hsh
    refine (runs_block hf hs h0 hB).returns.bind fun r c1 s1 h1 => ?_
    obtain ⟨⟨hB1,⟨rfl,h1,hg⟩ | ⟨rfl,h1,hn,hg⟩⟩,hrun⟩ := h1
    · have hfails : LockFails h c.clear s ↔ c1.err.qerror ≠ 0 := not_congr (runs_of_done hrun)
      have hg : Gets h c s := hg
      have hl : c1.lckcnt = c.lckcnt + 1 := h1.lckcnt
      rw [runs_ite, if_pos rfl]
      have hclear : Same c1 { c1 with lf := ⟨[], ZNULL, ZNULL, false, ZNULL⟩ } := ⟨rfl,rfl,rfl,rfl,rfl⟩
      have hB2 := hB1.same hclear
      refine runs_modify.2 (runs_bind.2 (runs_get.2 (runs_pure.2 ⟨⟨?_,?_⟩,hB2⟩)))
      · change 0 ≤ c1.lckcnt
        omega
      · change c1.lckcnt = (if c.shared = true ∧ c1.err.qerror = 0 then _ else _) ↔ _
        by_cases hz : c1.err.qerror = 0
        · simp [hsh, hz, hl, hfails]
        · simp [hsh, hz, hl, hfails, hg]
    · rw [runs_ite, if_neg (by decide)]
      refine (runs_bterr hf _ _ _ (by decide) hB1).mono fun _ c2 s2 h2 =>
        runs_bind.2 (runs_get.2 (runs_pure.2 ⟨⟨?_,?_⟩,h2.2⟩))
      · exact (h1.trans h2.1.1).lckcnt ▸ h0
      · have hl : c2.lckcnt = c.lckcnt := (h1.trans h2.1.1).lckcnt
        have hg : ¬ Gets h c s := hg
        simp [hsh, h2.1.2, hl, hg]
  · rename_i hsh
    have hsh : ¬ c.shared = true := hsh
    refine runs_pure.2 (runs_bind.2 (runs_get.2 (runs_pure.2 ⟨⟨h0,?_⟩,hB⟩)))
    simp [hsh]
    rfl

theorem runs_btunlock (ho : c.isopen = true) (hB : Settled strict R c s) :
    Runs h E btunlock c s fun _ c' s' => Steady c.unlock c' ∧ Settled strict R c' s' := by
  refine runs_api ho (runs_errOf ?_)
  have hB := hB.same (Same.clear c)
  exact (runs_leave hf hs (c := c.clear) h0 hB).mono fun _ _ _ h =>
    ⟨((Same.clear c).unlock.trans h.1).steady,h.2⟩

theorem runs_btdups (dups : Int) (ho : c.isopen = true) (hB : Settled strict R c s) :
    Runs h E (btdups dups) c s fun _ c' s' => Steady c c' ∧ Settled strict R c' s' := by
  refine runs_api ho (runs_errOf (runs_bind.2 (runs_get.2 ?_)))
  have hB := hB.same (Same.clear c)
  have h0 : 0 ≤ c.clear.lckcnt := h0
  rw [runs_ite]
  split
  · exact (runs_idle hf (idle_bterr _ _ _) hB).mono fun _ _ _ h => ⟨h.1.steady.of_clear,h.2⟩
  · refine (runs_enter hf hs h0 "BTDUPS" hB).bind fun r c1 s1 h1 => ?_
    obtain ⟨hB1,⟨rfl,h1,-⟩ | ⟨rfl,h1,-⟩⟩ := h1
    · rw [runs_ite, if_pos rfl]
      refine (runs_marksKept hf (marksKept_bstinf Nat.two_pos _ _ _) hs (.relock_same h0 h1) hB1).bind
        fun _ c2 s2 h2 => ?_
      have h2' := h1.trans h2.1
      refine (runs_leave hf hs (h2'.lckcnt ▸ Ctx.lckcnt_relock_nonneg h0) h2.2).mono fun _ _ _ h3 => ?_
      have := h2'.steady.unlock.trans h3.1.steady
      rw [Ctx.unlock_relock h0] at this
      exact ⟨this.of_clear,h3.2⟩
    · rw [runs_ite, if_neg (by decide)]
      exact runs_pure.2 ⟨h1.steady.of_clear,hB1⟩

end Selects

end Btlib
