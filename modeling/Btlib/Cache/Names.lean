import Btlib.Cache.Debug

namespace Btlib

variable [Build] {α β σ : Type} {h : Prog.Machine Op Res σ} {E : Op → σ → Prop} {strict : Prop}
  {R : σ → Finset Int × Option Int → Prop} {c c' : Ctx} {s : σ}

theorem counts_btcrtr (root : Key) : Counts strict (btcrtr root) id := by
  refine Counts.api (Counts.errOf fun c B ho h0 hB hs => ?_) respects_id _ _
  exact guarded_session _ _ (fun c1 B1 h1 hB1 => guarded_btcrtrBody hs root (.relock_same h0 h1) hB1
    (h1.isopen.trans ho)) (fun a => idle_pure a) h0 hB hs

section Names

variable (hf : Prog.Follows (busy strict) h R E) (hs : strict → 3 ≤ ZMXBLK) (h0 : 0 ≤ c.lckcnt)
include hf hs h0

theorem runs_counts {x : BT α} {g : Ctx → Ctx} (hx : Counts strict x g) (ho : c.isopen = true)
    (hB : Settled strict R c s) :
    Runs h E x c s fun _ c' s' => Steady (g c) c' ∧ Settled strict R c' s' :=
  runs_guarded hf hB fun B hB => hx c B ho h0 hB hs

omit hf in
theorem guarded_btchgr (root : Key) {B : Finset Int} (ho : c.isopen = true) (hB : Calm strict c B)
    (hroot : strict → 0 ≤ c.super.scroot) :
    Guarded strict (btchgr root) c B fun _ c' B' => Steady c c' ∧ Calm strict c' B' := by
  refine guarded_api (fun _ _ h => absurd (ho.symm.trans h) (by decide)) fun _ => ?_
  have hB := hB.same (Same.clear c) (.refl B)
  have h0 : 0 ≤ c.clear.lckcnt := h0
  refine (guarded_session (c := c.clear) _ _ (fun c1 B1 h1 hB1 => guarded_btchgrBody hs root
    (.relock_same h0 h1) hB1 fun hh => ?_) (fun a => idle_pure a) h0 hB hs).bind fun _ c1 B1 h1 => ?_
  · rw [h1.root]
    exact hroot hh
  · exact (idle_btgerr.calm h1.2).mono fun _ _ _ h => ⟨(h1.1.trans h.1.steady).of_clear,h.2⟩

-- The name is found, and is not that of the current root or of the superroot.
def Finds (h : Prog.Machine Op Res σ) (c : Ctx) (s : σ) (root : Key) : Prop :=
  ¬ Runs h (fun _ _ => True) (do
      let _ ← enter "BTDELR"
      btdelrFind root) c s fun f _ _ => ¬ Doomed f.1 f.2

-- The name is not there, or is not deleted, and the current root is not the superroot.
def Spares (h : Prog.Machine Op Res σ) (c : Ctx) (s : σ) (root : Key) : Prop :=
  ¬ Runs h (fun _ _ => True) (do
      let _ ← enter "BTDELR"
      let f ← btdelrFind root
      let status ← btdelrName root f.1 f.2
      return (f.1, status)) c s fun r _ _ => r.1 = ZSUPER ∨ r.2 = 0

theorem runs_btdelr (root : Key) (ho : c.isopen = true) (hB : Settled strict R c s)
    (hroot : strict → 0 ≤ c.super.scroot) (hdel : strict → ¬ Spares h c.clear s root) :
    Runs h E (btdelr root) c s fun _ c' s' => Counted (c.super.smode ≠ 0 ∧ c.shared = true ∧
      0 < c.lckcnt ∧ Finds h c.clear s root) c c' ∧ Settled strict R c' s' := by
  refine runs_api ho (runs_errOf ?_)
  have hB := hB.same (Same.clear c)
  have h0 : 0 ≤ c.clear.lckcnt := h0
  refine (runs_session (c := c.clear) (P := fun c' =>
    (c.super.smode ≠ 0 ∧ Finds h c.clear s root) ∧ Steady (c.clear.relock 1).unlock c' ∨
      ¬ (c.super.smode ≠ 0 ∧ Finds h c.clear s root) ∧ Steady (c.clear.relock 1) c') hf hs h0 "BTDELR" ()
    (fun c1 s1 h1 hB1 _ hrun => ?_) (fun a => idle_pure a) hB).mono fun _ c' s' h' => ⟨?_,h'.2⟩
  · have hc1 : Held c1 := .relock_same h0 h1
    refine (runs_guarded (P := fun f c' => f.1 = c1.super.scroot ∧ Steady c1 c' ∧
      c'.super.scroot = ZSUPER) hf hB1 fun B hB => (guarded_btdelrFind hs root hc1 hB fun hh => ?_).mono
      fun f c2 B2 h2 => ⟨⟨h2.1,h2.2.1,h2.2.2.1⟩,h2.2.2.2⟩).returns.bind fun f c2 s2 h2 => ?_
    · rw [h1.root]
      exact hroot hh
    obtain ⟨⟨⟨hf1,h2,hr2⟩,hB2⟩,hrun2⟩ := h2
    have hfinds : Finds h c.clear s root ↔ Doomed f.1 f.2 := by
      unfold Finds
      rw [runs_bind, runs_of_done hrun, runs_of_done hrun2, not_not]
    obtain ⟨B2,last2,hR2,hB2⟩ := hB2
    have hmode : c2.super.smode = c.super.smode := h2.mode.trans h1.mode
    refine ((guarded_btdelrName hs root f.1 f.2 (hc1.steady h2) ?_ hB2 ?_ hr2).runs hf hR2).returns.bind
      fun status c3 s3 h3 => ?_
    · rw [h2.lckcnt, h1.lckcnt]
      exact Ctx.lckcnt_relock_nonneg h0
    · exact h2.isopen.trans (h1.isopen.trans ho)
    obtain ⟨⟨B3,last3,hR3,h3,hB3,hfree⟩,hrun3⟩ := h3
    have hsub : strict → B3 ⊆ {f.1} := fun hh => by
      have hsp := hdel hh
      unfold Spares at hsp
      rw [runs_bind, runs_of_done hrun, runs_bind, runs_of_done hrun2, runs_bind, runs_of_done hrun3,
        runs_pure, not_not] at hsp
      rcases hsp with hz | hz
      · exact hz ▸ hB3 hh
      · exact (hfree hz).sub hh
    refine ((guarded_toRoot hs f.1 hsub).runs hf hR3).mono fun _ c4 s4 h4 => ?_
    obtain ⟨B4,last4,hR4,h4,hB4⟩ := h4
    have h2 := h1.steady.trans h2
    by_cases hd : Doomed f.1 f.2 ∧ c2.super.smode ≠ 0
    · rw [if_pos hd] at h3
      have h4 := (h2.unlock.trans h3).trans h4
      refine ⟨Or.inl ⟨⟨hmode ▸ hd.2,hfinds.2 hd.1⟩,h4⟩,?_,B4,last4,hR4,hB4⟩
      rw [h4.lckcnt, Ctx.unlock_relock h0]
      exact h0
    · rw [if_neg hd] at h3
      have h4 := (h2.trans h3).trans h4
      refine ⟨Or.inr ⟨fun h => hd ⟨hfinds.1 h.2,hmode ▸ h.1⟩,h4⟩,?_,B4,last4,hR4,hB4⟩
      rw [h4.lckcnt]
      exact Ctx.lckcnt_relock_nonneg h0
  · obtain ⟨⟨hst,hsh,hn⟩ | ⟨c2,⟨hd,h2⟩ | ⟨hd,h2⟩,hst⟩,-⟩ := h'
    · exact hst.of_clear.counted h0 fun h => by
        have : c.clear.lckcnt = c.lckcnt := rfl
        omega
    · rw [Ctx.unlock_relock h0] at h2
      refine Steady.counted_unlock (c := c.clear) (h2.unlock.trans hst) h0 ?_
      exact ⟨fun h => ⟨h.2.1,h.2.2.1⟩,fun h => ⟨hd.1,h.1,h.2,hd.2⟩⟩
    · have := h2.unlock.trans hst
      rw [Ctx.unlock_relock h0] at this
      exact this.of_clear.counted h0 fun h => hd ⟨h.1,h.2.2.2⟩

end Names

end Btlib
