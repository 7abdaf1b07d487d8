import Btlib.Cache.Handles

namespace Btlib

variable [Build] {α β σ : Type} {h : Prog.Machine Op Res σ} {E : Op → σ → Prop} {strict : Prop}
  {R : σ → Finset Int × Option Int → Prop} {c c' : Ctx} {s : σ}

namespace Api

-- What the count of the handle should be after the call.
def Claims (a : Api) (r : Int) (c c' : Ctx) : Prop :=
  match a with
  | .btcrt _ _ | .btopn _ _ | .btcls => True
  | .btlock =>
      c'.lckcnt = if c.isopen = true ∧ c.shared = true ∧ r = 0 then c.lckcnt + 1 else c.lckcnt
  | .btunlock =>
      c'.lckcnt =
        if c.isopen = true ∧ c.shared = true ∧ 0 < c.lckcnt then c.lckcnt - 1 else c.lckcnt
  | _ => c'.lckcnt = c.lckcnt

-- The branches that lock or unlock once too often.
def Strays (h : Prog.Machine Op Res σ) (c : Ctx) (s : σ) : Api → Prop
  | .bupdky _ _ | .bdelky _ => c.super.smode ≠ 0 ∧ c.shared = true ∧ 0 < c.lckcnt
  | .btins _ _ _ | .btsel _ _ => c.super.scroot = ZSUPER ∧ c.shared = true ∧ 0 < c.lckcnt
  | .btupd key _ dsize =>
      0 ≤ dsize ∧ c.super.scroot ≠ ZSUPER ∧ c.super.smode = 0 ∧ key = none ∧ c.shared = true ∧
        0 < c.lckcnt ∧ ¬ Current c
  | .btdel key => Keeping h c.clear s "BTDEL" key
  | .btrecs key => Keeping h c.clear s "BTRECS" key
  | .btseln _ => StrayNext h c.clear s
  | .btselp _ => c.super.scroot = ZSUPER ∧ 0 < c.lckcnt
  | .btpos pos => pos = ZEND ∧ c.shared = true ∧ Gets h c s ∧ EmptyRoot h c.clear s
  | .btdelr root => c.super.smode ≠ 0 ∧ c.shared = true ∧ 0 < c.lckcnt ∧ Finds h c.clear s root
  | .btlock => c.shared = true ∧ Gets h c s ∧ LockFails h c.clear s
  | .bdbug cmd _ => cmd = .struct ∧ c.shared = true ∧ Gets h c s
  | _ => False

-- The calls that leave the current root the only block busy.
def Tidy (h : Prog.Machine Op Res σ) (c : Ctx) (s : σ) : Api → Prop
  | .btchgr _ => 0 ≤ c.super.scroot
  | .btdelr root => 0 ≤ c.super.scroot ∧ ¬ Spares h c.clear s root
  | _ => True

end Api

section Debug

variable (hf : Prog.Follows (busy strict) h R E) (hs : strict → 3 ≤ ZMXBLK) (h0 : 0 ≤ c.lckcnt)
include hf hs h0

theorem runs_btkeys (ho : c.isopen = true) (hB : Settled strict R c s) :
    Runs h E btkeys c s fun _ c' s' => (Same (c.relock 1) c' ∨ Same c c' ∧ c.lckcnt = 0) ∧
      Settled strict R c' s' := by
  refine runs_api ho ?_
  have hB := hB.same (Same.clear c)
  have h0 : 0 ≤ c.clear.lckcnt := h0
  refine (runs_enter hf hs h0 "BTKEYS" hB).bind fun r c1 s1 h1 => ?_
  obtain ⟨hB1,⟨rfl,h1,-⟩ | ⟨rfl,h1,-,-,hn,-⟩⟩ := h1
  · rw [runs_ite, if_pos rfl]
    refine (runs_marksKept hf (marksKept_btkeysLoop Nat.two_pos _ _ _) hs (.relock_same h0 h1) hB1).mono
      fun _ _ _ h2 => ⟨Or.inl ?_,h2.2⟩
    have hclear : Same (c.relock 1) (c.clear.relock 1) := ⟨rfl,rfl,rfl,rfl,rfl⟩
    exact hclear.trans (h1.trans h2.1)
  · rw [runs_ite, if_neg (by decide)]
    exact runs_pure.2 ⟨Or.inr ⟨(Same.clear c).trans h1,hn⟩,hB1⟩

theorem runs_bdbugBody (cmd : Debug) (blkno : Int) (hc : Held c) (ho : c.isopen = true)
    (hB : Settled strict R c s) :
    Runs h E (bdbugBody cmd blkno) c s fun _ c' s' =>
      (cmd ≠ .struct ∧ Same c c' ∨ cmd = .struct ∧ Same (c.relock 1) c') ∧
        Settled strict R c' s' := by
  by_cases hcmd : cmd = .struct
  · subst hcmd
    refine runs_bind.2 ((runs_btkeys hf hs h0 ho hB).mono fun _ c1 s1 h1 => runs_pure.2 ⟨?_,h1.2⟩)
    obtain ⟨h1 | ⟨h1,hn⟩,-⟩ := h1
    · exact Or.inr ⟨rfl,h1⟩
    · have hsh : ¬ c.shared = true := fun h => by
        have := hc h
        omega
      rw [Ctx.relock, if_neg hsh]
      exact Or.inr ⟨rfl,h1⟩
  · have hq : MarksKept strict 2 (bdbugBody cmd blkno) := by
      cases cmd <;> unfold bdbugBody <;> first | exact absurd rfl hcmd | simp
    exact (runs_marksKept hf hq hs hc hB).mono fun _ _ _ h1 => ⟨Or.inl ⟨hcmd,h1.1⟩,h1.2⟩

end Debug

section Every

variable (hf : Prog.Follows (busy strict) h R E) (hs : strict → 3 ≤ ZMXBLK) (h0 : 0 ≤ c.lckcnt)
include hf hs h0

theorem runs_bdbugEnd (cmd : Debug) (blkno : Int) (ho : c.isopen = true) {c1 : Ctx}
    (h1 : Same (c.relock 1) c1) {G : Prop} (hg : c.shared = true → G) (hB : Settled strict R c1 s) :
    Runs h E (do bdbugBody cmd blkno; leave; btgerr) c1 s fun _ c' s' =>
      Counted (cmd = .struct ∧ c.shared = true ∧ G) c c' ∧ Settled strict R c' s' := by
  have h01 : 0 ≤ c1.lckcnt := h1.lckcnt ▸ Ctx.lckcnt_relock_nonneg h0
  refine (runs_bdbugBody hf hs h01 cmd blkno (.relock_same h0 h1) (h1.isopen.trans ho) hB).bind
    fun _ c2 s2 h2 => ?_
  obtain ⟨⟨hcmd,h2⟩ | ⟨hcmd,h2⟩,hB2⟩ := h2
  · exact runs_unlocks hf hs h0 idle_btgerr hB2 (h1.trans h2).steady fun h => hcmd h.1
  · have h02 : 0 ≤ c2.lckcnt := h2.lckcnt ▸ Ctx.lckcnt_relock_nonneg h01
    refine (runs_leave hf hs h02 hB2).bind fun _ c3 s3 h3 => ?_
    refine (runs_idle hf idle_btgerr h3.2).mono fun _ c4 s4 h4 => ⟨?_,h4.2⟩
    have := (h2.unlock.trans h3.1).trans h4.1
    rw [Ctx.unlock_relock h01] at this
    refine (h1.trans this).steady.counted_relock h0 ?_
    exact ⟨fun h => h.2.1,fun h => ⟨hcmd,h,hg h⟩⟩

theorem runs_bdbug (cmd : Debug) (blkno : Int) (ho : c.isopen = true) (hB : Settled strict R c s) :
    Runs h E (Api.bdbug cmd blkno).code c s fun _ c' s' =>
      Counted (cmd = .struct ∧ c.shared = true ∧ Gets h c s) c c' ∧ Settled strict R c' s' := by
  refine runs_api ho ?_
  have hB := hB.same (Same.clear c)
  have h0 : 0 ≤ c.clear.lckcnt := h0
  refine (runs_enter hf hs h0 "BDBUG" hB).bind fun r c1 s1 h1 => ?_
  obtain ⟨hB1,⟨rfl,h1,hg⟩ | ⟨rfl,h1,-,hsh,hn,hg⟩⟩ := h1
  · rw [runs_ite, if_pos rfl]
    exact runs_bdbugEnd (c := c.clear) hf hs h0 cmd blkno ho h1 hg hB1
  · rw [runs_ite, if_neg (by decide)]
    refine runs_stray (c := c.clear) hf hs h0 idle_btgerr hB1 h1.steady ?_
    exact iff_of_false (fun h => hg h.2.2) fun h => by omega

theorem runs_code (a : Api) (ho : c.isopen = true) (hopens : a.opens = false)
    (hB : Settled strict R c s) (htidy : strict → a.Tidy h c s) :
    Runs h E a.code c s fun r c' s' =>
      (0 ≤ c'.lckcnt ∧ (a.Claims r c c' ↔ ¬ a.Strays h c s)) ∧ Settled strict R c' s' := by
  have hcounted : ∀ {P : Prop} {c'}, Counted P c c' → 0 ≤ c'.lckcnt ∧ (c'.lckcnt = c.lckcnt ↔ ¬ P) :=
    fun h => ⟨h.1,by rw [← h.2, not_not]⟩
  have hsteady : ∀ {c'}, Steady c c' → 0 ≤ c'.lckcnt ∧ (c'.lckcnt = c.lckcnt ↔ ¬ False) := fun h =>
    hcounted (h.counted h0 id)
  cases a with
  | btcrt nkeys shared => cases hopens
  | btopn mode shared => cases hopens
  | btcls =>
      refine (runs_guarded (P := fun _ c' => 0 ≤ c'.lckcnt) hf hB fun B hB =>
        (guarded_btcls hs ⟨h0,hB⟩).mono fun _ _ _ h => h).mono fun _ _ _ h => ⟨⟨h.1,?_⟩,h.2⟩
      exact iff_of_true trivial id
  | btcrtr root =>
      exact (runs_counts hf hs h0 (counts_btcrtr root) ho hB).mono fun _ _ _ h => ⟨hsteady h.1,h.2⟩
  | btchgr root =>
      exact (runs_guarded hf hB fun B hB => guarded_btchgr hs h0 root ho hB htidy).mono
        fun _ _ _ h => ⟨hsteady h.1,h.2⟩
  | btdelr root =>
      exact (runs_btdelr hf hs h0 root ho hB (fun h => (htidy h).1) fun h => (htidy h).2).mono
        fun _ _ _ h => ⟨hcounted h.1,h.2⟩
  | btdups dups => exact (runs_btdups hf hs h0 dups ho hB).mono fun _ _ _ h => ⟨hsteady h.1,h.2⟩
  | binsky key val =>
      exact (runs_counts hf hs h0 (counts_binsky key val) ho hB).mono fun _ _ _ h => ⟨hsteady h.1,h.2⟩
  | bfndky key =>
      refine (runs_counts hf hs h0 (counts_bfndky key) ho hB).bind fun _ _ _ h => ?_
      exact runs_pure.2 ⟨hsteady h.1,h.2⟩
  | bupdky key val =>
      exact (runs_counts hf hs h0 (counts_bupdky key val) ho hB).mono fun _ _ _ h =>
        ⟨hcounted (h.1.counted_unlock_unless h0),h.2⟩
  | bdelky key =>
      exact (runs_counts hf hs h0 (counts_bdelky key) ho hB).mono fun _ _ _ h =>
        ⟨hcounted (h.1.counted_unlock_unless h0),h.2⟩
  | bnxtky =>
      refine (runs_counts hf hs h0 counts_bnxtky ho hB).bind fun _ _ _ h => ?_
      exact runs_pure.2 ⟨hsteady h.1,h.2⟩
  | bprvky =>
      refine (runs_counts hf hs h0 counts_bprvky ho hB).bind fun _ _ _ h => ?_
      exact runs_pure.2 ⟨hsteady h.1,h.2⟩
  | btpos pos => exact (runs_btpos hf hs h0 pos ho hB).mono fun _ _ _ h => ⟨hcounted h.1,h.2⟩
  | btins key data dsize =>
      exact (runs_counts hf hs h0 (counts_btins key data dsize) ho hB).mono fun _ _ _ h =>
        ⟨hcounted (h.1.counted_unlock_if h0),h.2⟩
  | btupd key data dsize =>
      exact (runs_btupd hf hs h0 key data dsize ho hB).mono fun _ _ _ h => ⟨hcounted h.1,h.2⟩
  | btsel key dsize =>
      refine (runs_counts hf hs h0 (counts_btsel key dsize) ho hB).bind fun _ _ _ h => ?_
      exact runs_pure.2 ⟨hcounted (h.1.counted_unlock_if h0),h.2⟩
  | btdel key => exact (runs_btdel hf hs h0 key ho hB).mono fun _ _ _ h => ⟨hcounted h.1,h.2⟩
  | btseln dsize =>
      refine (runs_btseln hf hs h0 dsize ho hB).bind fun _ _ _ h => ?_
      exact runs_pure.2 ⟨hcounted h.1,h.2⟩
  | btselp dsize =>
      refine (runs_btselp hf hs h0 dsize ho hB).bind fun _ _ _ h => ?_
      exact runs_pure.2 ⟨hcounted h.1,h.2⟩
  | btrecs key =>
      refine (runs_btrecs hf hs h0 key ho hB).bind fun _ _ _ h => ?_
      exact runs_pure.2 ⟨hcounted h.1,h.2⟩
  | btlock =>
      refine (runs_btlock hf hs h0 ho hB).mono fun r c' _ h => ⟨⟨h.1.1,?_⟩,h.2⟩
      simp only [Api.Claims, ho, true_and]
      exact h.1.2
  | btunlock =>
      refine (runs_btunlock hf hs h0 ho hB).mono fun r c' _ h => ⟨?_,h.2⟩
      have hl : c'.lckcnt = c.unlock.lckcnt := h.1.lckcnt
      simp only [Api.Claims, ho, true_and]
      refine ⟨?_,iff_of_true hl id⟩
      rw [hl]
      simp only [Ctx.unlock]
      split <;> omega
  | btthresh n => exact (runs_btthresh n ho hB).mono fun _ _ _ h => ⟨hsteady h.1,h.2⟩
  | bdbug cmd blkno =>
      exact (runs_bdbug hf hs h0 cmd blkno ho hB).mono fun _ _ _ h => ⟨hcounted h.1,h.2⟩

end Every

end Btlib
