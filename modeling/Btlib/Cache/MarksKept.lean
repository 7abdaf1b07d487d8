import Btlib.Cache.Busy

namespace Btlib

variable [Build] {strict : Prop} {k : Nat} {α : Type}

section Blocks

@[simp] theorem marksKept_bgtinf (hk : 0 < k) (blk : Int) (type : Inf) : MarksKept strict k (bgtinf blk type) := by
  unfold bgtinf
  with_reducible repeat' first | refine .bind ?_ fun _ => ?_ | refine .ite ?_ ?_ | split
  all_goals simp [hk]

@[simp] theorem marksKept_bstinf (hk : 0 < k) (blk : Int) (type : Inf) (val : Int) :
    MarksKept strict k (bstinf blk type val) := by
  unfold bstinf
  with_reducible repeat' first | refine .bind ?_ fun _ => ?_ | refine .ite ?_ ?_ | split
  all_goals simp [hk]

@[simp] theorem marksKept_bsetbk (hk : 0 < k) (blk type misc nxblk nkeys nblks dupblk : Int) :
    MarksKept strict k (bsetbk blk type misc nxblk nkeys nblks dupblk) := by
  unfold bsetbk
  with_reducible repeat' first | refine .bind ?_ fun _ => ?_ | refine .ite ?_ ?_ | split
  all_goals simp [hk]

@[simp] theorem marksKept_bpush (val : Int) : MarksKept strict k (bpush val) := by
  unfold bpush
  with_reducible repeat' first | refine .bind ?_ fun _ => ?_ | refine .ite ?_ ?_ | split
  all_goals simp

@[simp] theorem marksKept_bpull : MarksKept strict k bpull := by
  unfold bpull
  with_reducible repeat' first | refine .bind ?_ fun _ => ?_ | refine .ite ?_ ?_ | split
  all_goals simp

@[simp] theorem marksKept_bstkin : MarksKept strict k bstkin := .setStk _

@[simp] theorem marksKept_bclrlf : MarksKept strict k bclrlf := .setLf _

@[simp] theorem marksKept_bmkfre (hk : 0 < k) (blk : Int) : MarksKept strict k (bmkfre blk) := by
  unfold bmkfre
  with_reducible repeat' first | refine .bind ?_ fun _ => ?_ | refine .ite ?_ ?_ | split
  all_goals simp [hk]

@[simp] theorem marksKept_bsrhbk (hk : 0 < k) (blk : Int) (o : Srh) : MarksKept strict k (bsrhbk blk o) := by
  unfold bsrhbk
  with_reducible repeat' first | refine .bind ?_ fun _ => ?_ | refine .ite ?_ ?_ | split
  all_goals simp [hk]

@[simp] theorem marksKept_bputky (hk : 0 < k) (blk : Int) (ke : KeyEnt) (link1 link2 : Int) :
    MarksKept strict k (bputky blk ke link1 link2) := by
  unfold bputky
  with_reducible repeat' first | refine .bind ?_ fun _ => ?_ | refine .ite ?_ ?_ | split
  all_goals simp [hk]

@[simp] theorem marksKept_bremky (hk : 0 < k) (blk pos : Int) : MarksKept strict k (bremky blk pos) := by
  unfold bremky
  with_reducible repeat' first | refine .bind ?_ fun _ => ?_ | refine .ite ?_ ?_ | split
  all_goals simp [hk]

@[simp] theorem marksKept_brepky (hk : 0 < k) (blk loc : Int) (ke : KeyEnt) (link1 link2 : Int) :
    MarksKept strict k (brepky blk loc ke link1 link2) := by
  unfold brepky
  with_reducible repeat' first | refine .bind ?_ fun _ => ?_ | refine .ite ?_ ?_ | split
  all_goals simp [hk]

@[simp] theorem marksKept_bleafLoop (hk : 0 < k) (dir : Int) (n : Nat) (b : Block) :
    MarksKept strict k (bleafLoop dir n b) := by
  induction n generalizing b with
  | zero => exact .hang
  | succ n ih =>
      unfold bleafLoop
      with_reducible repeat' first | refine .bind ?_ fun _ => ?_ | refine .ite ?_ ?_ | split
      all_goals simp [hk, ih]

@[simp] theorem marksKept_bleaf (hk : 0 < k) (dir : Int) : MarksKept strict k (bleaf dir) := by
  unfold bleaf
  with_reducible repeat' first | refine .bind ?_ fun _ => ?_ | refine .ite ?_ ?_ | split
  all_goals simp [hk]

theorem guarded_bgtinf {c : Ctx} {B : Finset Int} (blk : Int) (type : Inf)
    (hs : strict → blk ∈ B ∨ B.card < ZMXBLK) :
    Guarded strict (bgtinf blk type) c B fun _ c' B' => Same c c' ∧ B' = B := by
  refine (guarded_brdblk blk hs).bind fun r c' B' h => ?_
  obtain ⟨hsame,rfl,-⟩ := h
  split
  · refine guarded_bind (guarded_bind (guarded_ask ⟨trivial,fun _ _ => guarded_modify.2 ?_⟩))
    exact guarded_pure.2 ⟨hsame.trans ⟨rfl,rfl,rfl,rfl,rfl⟩,rfl⟩
  · exact guarded_pure.2 ⟨hsame,rfl⟩

-- A block that is handed out has a number, unless the allocator gives up.
theorem guarded_bgtfre (hk : 0 < k) {c : Ctx} {B : Finset Int} (hB : Spare strict k B) : Guarded strict bgtfre c B fun r c' B' =>
      Same c c' ∧ B' = B ∧ (strict → 0 ≤ r) := by
  refine guarded_bind (guarded_get.2 ?_)
  rw [guarded_ite]
  split
  · dsimp only
    rw [guarded_ite]
    split
    · refine guarded_bind (guarded_gaveUp (Or.inl rfl) _ _ fun c' h hs => ?_)
      exact guarded_pure.2 ⟨h,rfl,fun h => absurd h hs⟩
    · refine guarded_bind (guarded_ask ⟨fun hs => hB.slot hk hs,fun r hr => ?_⟩)
      cases r with
      | noslot =>
          refine guarded_bind (guarded_bind (guarded_ask ⟨trivial,fun _ _ => ?_⟩))
          refine guarded_modify.2 (guarded_bind (guarded_modify.2 (guarded_pure.2 ?_)))
          exact ⟨⟨rfl,rfl,rfl,rfl,rfl⟩,rfl,fun hs => absurd rfl (hr hs).2⟩
      | failed =>
          refine guarded_bind (guarded_gaveUp (Or.inl rfl) _ _ fun c' h hs => ?_)
          exact guarded_pure.2 ⟨h,rfl,fun h => absurd h hs⟩
      | lost =>
          refine guarded_bind (guarded_bind (guarded_ask ⟨trivial,fun _ _ => ?_⟩))
          refine guarded_modify.2 (guarded_bind (guarded_modify.2 (guarded_pure.2 ?_)))
          exact ⟨⟨rfl,rfl,rfl,rfl,rfl⟩,rfl,fun hs => (hr hs).1⟩
      | ok =>
          refine guarded_bind (guarded_modify.2 (guarded_pure.2 ?_))
          exact ⟨⟨rfl,rfl,rfl,rfl,rfl⟩,rfl,fun hs => (hr hs).1⟩
  · rename_i hne
    refine (guarded_brdblk _ fun hs => Or.inr (hB.slot hk hs)).bind fun r c1 B1 h1 => ?_
    obtain ⟨hsame,rfl,hr⟩ := h1
    split
    · refine guarded_bind (guarded_gaveUp (Or.inl rfl) _ _ fun c' h hs => ?_)
      refine guarded_bind (guarded_modify.2 (guarded_pure.2 ?_))
      exact ⟨(hsame.trans h).trans ⟨rfl,rfl,rfl,rfl,rfl⟩,rfl,fun h => absurd h hs⟩
    · have hpos : strict → 0 ≤ c.super.sfreep := fun hs => by
        by_contra hneg
        have hne : c.super.sfreep ≠ -1 := hne
        cases (hr hs).2 (show c.super.sfreep < -1 by omega)
      refine (guarded_bgtinf _ _ fun hs => Or.inr (hB.slot hk hs)).bind fun _ c2 B2 h2 => ?_
      obtain ⟨hs2,rfl⟩ := h2
      rw [guarded_ite]
      split
      · refine guarded_bind (guarded_gaveUp (Or.inl rfl) _ _ fun c' h hs => ?_)
        exact guarded_pure.2 ⟨(hsame.trans hs2).trans h,rfl,fun h => absurd h hs⟩
      · refine (guarded_bgtinf _ _ fun hs => Or.inr (hB.slot hk hs)).bind fun _ c3 B3 h3 => ?_
        obtain ⟨hs3,rfl⟩ := h3
        refine guarded_bind (guarded_modify.2 (guarded_pure.2 ?_))
        exact ⟨((hsame.trans hs2).trans hs3).trans ⟨rfl,rfl,rfl,rfl,rfl⟩,rfl,hpos⟩

@[simp] theorem marksKept_bgtfre (hk : 0 < k) : MarksKept strict k bgtfre := fun _ B _ hB =>
  (guarded_bgtfre hk hB).mono fun _ _ _ h => ⟨h.1,h.2.1.symm ▸ Fewer.refl B⟩

theorem guarded_bcpybk {c : Ctx} {B : Finset Int} {tblk fblk : Int} (hc : Held c)
    (hB : strict → B.card < ZMXBLK) (hf : strict → fblk ∈ B ∨ (insert tblk B).card < ZMXBLK)
    (ts fs n : Int) :
    Guarded strict (bcpybk tblk fblk ts fs n) c B fun _ c' B' => Same c c' ∧ Fewer strict B B' := by
  refine (guarded_brdblk tblk fun hs => Or.inr (hB hs)).bind fun r c1 B1 h1 => ?_
  obtain ⟨hs1,rfl,-⟩ := h1
  split
  · exact (marksKept_bterr (k := 0) _ _ _ c1 B1 (hc.same hs1) fun hs => (hB hs).le).mono
      fun _ _ _ h => ⟨hs1.trans h.1,h.2⟩
  · refine (guarded_bsetbs_true tblk fun hs => Or.inr (hB hs)).bind fun _ c2 B2 h2 => ?_
    have hread : strict → fblk ∈ B2 ∨ B2.card < ZMXBLK := fun hs => by
      rcases h2.2 with rfl | rfl
      · exact (hf hs).imp_left (Finset.mem_insert_of_mem ·)
      · exact Or.inr (hB hs)
    have hclear : strict → tblk ∈ B2 ∨ B2.card < ZMXBLK := fun hs => by
      rcases h2.2 with rfl | rfl
      · exact Or.inl (Finset.mem_insert_self _ _)
      · exact Or.inr (hB hs)
    have hsub : B2.erase tblk ⊆ B1 := by
      rcases h2.2 with rfl | rfl
      · exact Finset.erase_insert_subset _ _
      · exact Finset.erase_subset _ _
    refine (guarded_brdblk fblk hread).bind fun f c3 B3 h3 => ?_
    obtain ⟨hs3,rfl,-⟩ := h3
    refine (guarded_bsetbs_false tblk hclear).bind fun _ c4 B4 h4 => ?_
    have hs : Same c c4 := ((hs1.trans h2.1).trans hs3).trans h4.1
    have hfew : Fewer strict B1 B4 := fun h => (h4.2 h).trans hsub
    have hspare : Spare strict 0 B4 := fun h => (Finset.card_le_card (hfew h)).trans (hB h).le
    cases f with
    | none =>
        exact (marksKept_bterr _ _ _ c4 B4 (hc.same hs) hspare).mono fun _ _ _ h =>
          ⟨hs.trans h.1,hfew.trans h.2⟩
    | some f =>
        exact (marksKept_wr _ _ _ c4 B4 (hc.same hs) hspare).mono fun _ _ _ h => ⟨hs.trans h.1,hfew.trans h.2⟩

@[simp] theorem marksKept_bcpybk (hk : 1 < k) (tblk fblk ts fs n : Int) :
    MarksKept strict k (bcpybk tblk fblk ts fs n) := by
  intro c B hc hB
  refine guarded_bcpybk hc (fun hs => hB.slot (by omega) hs) (fun hs => Or.inr ?_) ts fs n
  have h1 := hB hs
  have h2 := Finset.card_insert_le tblk B
  omega

@[simp] theorem marksKept_bsptbk (hk : 1 < k) (blk : Int) : MarksKept strict k (bsptbk blk) := by
  have hk0 : 0 < k := by omega
  refine .bind (marksKept_bgtinf hk0 _ _) fun type => .ite ?_ ?_
  · with_reducible repeat' first | refine .bind ?_ fun _ => ?_ | refine .ite ?_ ?_ | split
    all_goals simp [hk, hk0]
  · intro c B hc hB
    refine (guarded_bsetbs_true blk fun hs => Or.inr (hB.slot hk0 hs)).bind fun _ c1 B1 h1 => ?_
    have hB1 : Spare strict 1 B1 := fun hs => by
      have := hB hs
      have := Finset.card_insert_le blk B
      rcases h1.2 with rfl | rfl <;> omega
    have hsub : B1.erase blk ⊆ B := by
      rcases h1.2 with rfl | rfl
      · exact Finset.erase_insert_subset _ _
      · exact Finset.erase_subset _ _
    refine (guarded_bgtfre Nat.one_pos hB1).bind fun newblk c2 B2 h2 => ?_
    obtain ⟨hs2,rfl,hpos⟩ := h2
    have hs2 := h1.1.trans hs2
    rw [guarded_ite]
    split
    · rename_i hneg
      exact guarded_pure.2 ⟨hs2,fun hs => absurd (hpos hs) (not_le.2 hneg)⟩
    · have hf : strict → blk ∈ B2 ∨ (insert newblk B2).card < ZMXBLK := fun hs => by
        have := hB hs
        have := Finset.card_insert_le newblk B
        rcases h1.2 with rfl | rfl
        · exact Or.inl (Finset.mem_insert_self _ _)
        · exact Or.inr (by omega)
      refine (guarded_bcpybk (hc.same hs2) (fun hs => hB1.slot Nat.one_pos hs) hf 0 (sp + 1) sp2).bind
        fun _ c3 B3 h3 => ?_
      have hs3 := hs2.trans h3.1
      have hB3 := hB1.fewer h3.2
      refine guarded_bind (guarded_get.2 ?_)
      refine (marksKept_bsetbk Nat.one_pos _ _ _ _ _ _ _ c3 B3 (hc.same hs3) hB3).bind
        fun _ c4 B4 h4 => ?_
      have hs4 := hs3.trans h4.1
      have hB4 := hB3.fewer h4.2
      refine (marksKept_bsrhbk Nat.one_pos _ _ c4 B4 (hc.same hs4) hB4).bind fun r c5 B5 h5 => ?_
      have hs5 := hs4.trans h5.1
      have hB5 := hB4.fewer h5.2
      rw [guarded_ite]
      split
      · refine guarded_bind (guarded_gaveUp (Or.inr rfl) _ _ fun c' h hs => ?_)
        exact guarded_pure.2 ⟨hs5.trans h,fun h => absurd h hs⟩
      · refine (marksKept_bstinf Nat.one_pos _ _ _ c5 B5 (hc.same hs5) hB5).bind fun _ c6 B6 h6 => ?_
        have hs6 := hs5.trans h6.1
        have hB6 := hB5.fewer h6.2
        refine guarded_bind (guarded_get.2 ?_)
        refine (marksKept_bputky Nat.one_pos _ _ _ _ c6 B6 (hc.same hs6) hB6).bind fun _ c7 B7 h7 => ?_
        have hB7 := hB6.fewer h7.2
        refine (guarded_bsetbs_false blk fun hs => Or.inr (hB7.slot Nat.one_pos hs)).bind
          fun _ c8 B8 h8 => ?_
        refine guarded_pure.2 ⟨(hs6.trans h7.1).trans h8.1,fun hs => ?_⟩
        have hfew := (((h3.2.trans h4.2).trans h5.2).trans h6.2).trans h7.2
        exact ((h8.2 hs).trans (Finset.erase_subset_erase blk (hfew hs))).trans hsub

end Blocks

end Btlib
