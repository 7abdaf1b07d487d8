import Mathlib.Data.List.Nodup

-- Cells with a link forwards and a link back, in any number of lists.
namespace DoubleLinks

variable {ι : Type} {null a b c : ι} {D D' : List ι} {nx pv nx' pv' : ι → ι}

-- Each link of a cell of `D` leads to a cell of `D` that links back, or to none.
structure Strung (nx pv : ι → ι) (null : ι) (D : List ι) : Prop where
  next : ∀ b ∈ D, nx b = null ∨ nx b ∈ D ∧ pv (nx b) = b
  prev : ∀ b ∈ D, pv b = null ∨ pv b ∈ D ∧ nx (pv b) = b

namespace Strung

theorem congr (h : Strung nx pv null D) (hnx : ∀ b ∈ D, nx' b = nx b) (hpv : ∀ b ∈ D, pv' b = pv b) :
    Strung nx' pv' null D := by
  constructor
  · intro b hb
    rw [hnx b hb]
    refine (h.next b hb).imp_right fun hx => ⟨hx.1,?_⟩
    rw [hpv _ hx.1, hx.2]
  · intro b hb
    rw [hpv b hb]
    refine (h.prev b hb).imp_right fun hx => ⟨hx.1,?_⟩
    rw [hnx _ hx.1, hx.2]

theorem alone (h : Strung nx pv null D) (hn : nx b = null) (hp : pv b = null) : Strung nx pv null (b :: D) := by
  constructor
  · intro c hc
    rcases List.mem_cons.1 hc with rfl | hc
    · exact Or.inl hn
    · exact (h.next c hc).imp_right fun hx => ⟨List.mem_cons_of_mem _ hx.1,hx.2⟩
  · intro c hc
    rcases List.mem_cons.1 hc with rfl | hc
    · exact Or.inl hp
    · exact (h.prev c hc).imp_right fun hx => ⟨List.mem_cons_of_mem _ hx.1,hx.2⟩

-- The cell `b` on its own goes before `a`, the first of its list.
theorem join [DecidableEq ι] (h : Strung nx pv null D) (ha : a ∈ D) (hb : b ∈ D) (hnull : null ∉ D)
    (hn : nx b = null) (hfirst : pv a = null) (hnx : ∀ c ∈ D, nx' c = if c = b then a else nx c)
    (hpv : ∀ c ∈ D, pv' c = if c = a then b else pv c) : Strung nx' pv' null D := by
  have hne : ∀ c ∈ D, c ≠ null := fun c hc h0 => hnull (h0 ▸ hc)
  constructor
  · intro c hc
    rw [hnx c hc]
    by_cases hcb : c = b
    · rw [if_pos hcb, hpv a ha, if_pos rfl]
      exact Or.inr ⟨ha,hcb.symm⟩
    · rw [if_neg hcb]
      refine (h.next c hc).imp_right fun hx => ⟨hx.1,?_⟩
      have hxa : nx c ≠ a := fun hxa => hne c hc (by rw [← hx.2, hxa, hfirst])
      rw [hpv _ hx.1, if_neg hxa, hx.2]
  · intro c hc
    rw [hpv c hc]
    by_cases hca : c = a
    · rw [if_pos hca, hnx b hb, if_pos rfl]
      exact Or.inr ⟨hb,hca.symm⟩
    · rw [if_neg hca]
      refine (h.prev c hc).imp_right fun hx => ⟨hx.1,?_⟩
      have hxb : pv c ≠ b := fun hxb => hne c hc (by rw [← hx.2, hxb, hn])
      rw [hnx _ hx.1, if_neg hxb, hx.2]

-- The neighbours of the cell `b` are linked past it.
theorem unlink [DecidableEq ι] (h : Strung nx pv null D) (hb : b ∈ D) (hD : D.Nodup) (hnull : null ∉ D)
    (hnx : ∀ c ∈ D, c ≠ b → nx' c = if c = pv b then nx b else nx c)
    (hpv : ∀ c ∈ D, c ≠ b → pv' c = if c = nx b then pv b else pv c) : Strung nx' pv' null (D.erase b) := by
  have hne : ∀ c ∈ D, c ≠ null := fun c hc h0 => hnull (h0 ▸ hc)
  constructor
  · intro c hc
    obtain ⟨hcb,hc⟩ := (List.Nodup.mem_erase_iff hD).1 hc
    rw [hnx c hc hcb]
    by_cases hcp : c = pv b
    · rw [if_pos hcp]
      rcases h.next b hb with hz | ⟨hz,hzb⟩
      · exact Or.inl hz
      · have hxb : nx b ≠ b := fun heq => hcb (by rw [hcp, ← heq, hzb, heq])
        rw [hpv _ hz hxb, if_pos rfl]
        exact Or.inr ⟨(List.Nodup.mem_erase_iff hD).2 ⟨hxb,hz⟩,hcp.symm⟩
    · rw [if_neg hcp]
      rcases h.next c hc with hz | ⟨hz,hzc⟩
      · exact Or.inl hz
      · have hxb : nx c ≠ b := fun heq => hcp (by rw [← heq, hzc])
        have hxn : nx c ≠ nx b := by
          intro heq
          rcases h.next b hb with hz' | ⟨-,hz'⟩
          · exact hne _ hz (heq.trans hz')
          · exact hcb (by rw [← hzc, heq, hz'])
        rw [hpv _ hz hxb, if_neg hxn, hzc]
        exact Or.inr ⟨(List.Nodup.mem_erase_iff hD).2 ⟨hxb,hz⟩,rfl⟩
  · intro c hc
    obtain ⟨hcb,hc⟩ := (List.Nodup.mem_erase_iff hD).1 hc
    rw [hpv c hc hcb]
    by_cases hcn : c = nx b
    · rw [if_pos hcn]
      rcases h.prev b hb with hz | ⟨hz,hzb⟩
      · exact Or.inl hz
      · have hxb : pv b ≠ b := fun heq => hcb (by rw [hcn, ← heq, hzb, heq])
        rw [hnx _ hz hxb, if_pos rfl]
        exact Or.inr ⟨(List.Nodup.mem_erase_iff hD).2 ⟨hxb,hz⟩,hcn.symm⟩
    · rw [if_neg hcn]
      rcases h.prev c hc with hz | ⟨hz,hzc⟩
      · exact Or.inl hz
      · have hxb : pv c ≠ b := fun heq => hcn (by rw [← heq, hzc])
        have hxn : pv c ≠ pv b := by
          intro heq
          rcases h.prev b hb with hz' | ⟨-,hz'⟩
          · exact hne _ hz (heq.trans hz')
          · exact hcb (by rw [← hzc, heq, hz'])
        rw [hnx _ hz hxb, if_neg hxn, hzc]
        exact Or.inr ⟨(List.Nodup.mem_erase_iff hD).2 ⟨hxb,hz⟩,rfl⟩

end Strung

end DoubleLinks
