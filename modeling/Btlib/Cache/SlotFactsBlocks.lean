import Btlib.Cache.SlotFacts

namespace Btlib

variable [Build] {α β : Type} {c : Ctx} {t : SlotFacts} {f : Unit → BT β}

section Blocks

@[simp] theorem keepsFacts_bgtinf (blk : Int) (type : Inf) : KeepsFacts (bgtinf blk type) := by
  unfold bgtinf
  with_reducible repeat' first | refine .bind ?_ fun _ => ?_ | refine .ite ?_ ?_ | split
  all_goals simp

@[simp] theorem keepsFacts_bstinf (blk : Int) (type : Inf) (val : Int) : KeepsFacts (bstinf blk type val) :=
  .read (keepsFacts_bterr _ _ _) fun _ => upon_wr Int.one_pos

theorem minds_bstinf (blk : Int) (type : Inf) (val : Int) (hl : t.last = some blk) :
    Minds (bstinf blk type val) c t fun _ c' t' => c' = c ∧
      t' = { t with counted := true, dirty := t.dirty.map (insert blk) } := by
  refine (minds_brdblk (Or.inr hl)).bind fun r c1 t1 h1 => ?_
  obtain ⟨rfl,rfl,hr⟩ := h1
  cases r with
  | none => exact absurd rfl (hr (Or.inr hl))
  | some b =>
      refine (minds_wr rfl Int.one_pos).mono fun _ c2 t2 h2 => ⟨h2.1,h2.2.trans ?_⟩
      obtain ⟨B,last,size,counted,dirty,told⟩ := t
      cases hl
      rfl

@[simp] theorem keepsFacts_bsetbk (blk type misc nxblk nkeys nblks dupblk : Int) :
    KeepsFacts (bsetbk blk type misc nxblk nkeys nblks dupblk) := by
  refine .read (keepsFacts_bterr _ _ _) fun b c t ht hl => ?_
  refine (minds_bstinf blk .ZBTYPE type hl).bind fun _ c1 t1 h1 => ?_
  obtain ⟨rfl,rfl⟩ := h1
  exact upon_wr Int.one_pos _ _ ⟨ht.shared,ht.size,rfl,ht.told⟩ hl

@[simp] theorem keepsFacts_bgtfre : KeepsFacts bgtfre := by
  intro c t ht
  refine minds_get_bind.2 ?_
  rw [minds_ite]
  split
  · dsimp only
    rw [minds_ite]
    split
    · exact (KeepsFacts.bind (keepsFacts_bterr _ _ _) fun _ => .pure _) c t ht
    · refine minds_ask_bind.2 ⟨⟨ht.counted,ht.size⟩,fun r hr => ?_⟩
      have hr : r = .ok := hr
      subst hr
      exact ⟨ht.shared,rfl,ht.counted,fun p hp => (ht.told p hp).trans_lt (Int.lt_succ _)⟩
  · refine KeepsFacts.bind (keepsFacts_brdblk _) (fun r => ?_) c t ht
    with_reducible repeat' first | refine .bind ?_ fun _ => ?_ | refine .ite ?_ ?_ | split
    all_goals simp

@[simp] theorem keepsFacts_bmkfre (blk : Int) : KeepsFacts (bmkfre blk) := by
  unfold bmkfre
  with_reducible repeat' first | refine .bind ?_ fun _ => ?_ | refine .ite ?_ ?_ | split
  all_goals simp

@[simp] theorem keepsFacts_bputky (blk : Int) (ke : KeyEnt) (link1 link2 : Int) :
    KeepsFacts (bputky blk ke link1 link2) := by
  refine .read (keepsFacts_bterr _ _ _) fun b => .ite (keepsFacts_bterr _ _ _).upon ?_
  exact .wr_bind Int.one_pos (.bind (keepsFacts_mark _) fun _ => keepsFacts_writeThrough _)

@[simp] theorem keepsFacts_brepky (blk loc : Int) (ke : KeyEnt) (link1 link2 : Int) :
    KeepsFacts (brepky blk loc ke link1 link2) :=
  .ite (keepsFacts_bterr _ _ _) (.read (keepsFacts_bterr _ _ _) fun _ => upon_wr Int.one_pos)

@[simp] theorem keepsFacts_bleafLoop (dir : Int) (n : Nat) (b : Block) : KeepsFacts (bleafLoop dir n b) := by
  induction n generalizing b with
  | zero => exact .hang
  | succ n ih =>
      unfold bleafLoop
      with_reducible repeat' first | refine .bind ?_ fun _ => ?_ | refine .ite ?_ ?_ | split
      all_goals simp [ih]

@[simp] theorem keepsFacts_bleaf (dir : Int) : KeepsFacts (bleaf dir) := by
  unfold bleaf
  with_reducible repeat' first | refine .bind ?_ fun _ => ?_ | refine .ite ?_ ?_ | split
  all_goals simp

end Blocks

section Copy

omit [Build] in
theorem minds_bcpybk (tblk fblk ts fs n : Int) (ht : Lone c t) :
    Minds (bcpybk tblk fblk ts fs n) c t fun _ c' t' => Lone c' { t' with counted := true } ∧
      (t'.counted = true ∨ t'.last = some tblk ∧ n ≤ 0) := by
  have hlone : ∀ {c' : Ctx} {t' : SlotFacts}, Lone c' t' → Lone c' { t' with counted := true } ∧
      (t'.counted = true ∨ t'.last = some tblk ∧ n ≤ 0) := fun h => ⟨⟨h.shared,h.size,rfl,h.told⟩,Or.inl h.counted⟩
  refine (minds_brdblk (Or.inl ht.counted)).bind fun r c1 t1 h1 => ?_
  obtain ⟨rfl,rfl,-⟩ := h1
  cases r with
  | none =>
      exact Minds.mono (keepsFacts_bterr "BCPYBK" QCPBLK .none _ _ ⟨ht.shared,ht.size,ht.counted,ht.told⟩)
        fun _ _ _ h => hlone h
  | some b =>
      refine Minds.bind (minds_bsetbs true ht.counted (Or.inr rfl)) fun _ c2 t2 h2 => ?_
      obtain ⟨rfl,rfl⟩ := h2
      refine Minds.bind (minds_brdblk (Or.inl ht.counted)) fun r c3 t3 h3 => ?_
      obtain ⟨rfl,rfl,-⟩ := h3
      refine Minds.bind (minds_bsetbs false ht.counted (Or.inl (Finset.mem_insert_self tblk _)))
        fun _ c4 t4 h4 => ?_
      obtain ⟨rfl,rfl⟩ := h4
      cases r with
      | none =>
          exact Minds.mono (keepsFacts_bterr "BCPYBK" QCPBLK .none _ _ ⟨ht.shared,ht.size,ht.counted,ht.told⟩)
            fun _ _ _ h => hlone h
      | some b' =>
          refine minds_ask rfl fun _ _ => ⟨⟨ht.shared,ht.size,rfl,ht.told⟩,?_⟩
          by_cases hn : 0 < n
          · exact Or.inl (by simp [slotFacts, hn])
          · exact Or.inr ⟨rfl,not_lt.1 hn⟩

omit [Build] in
theorem keepsFacts_bcpybk (tblk fblk ts fs : Int) {n : Int} (hn : 0 < n) : KeepsFacts (bcpybk tblk fblk ts fs n) :=
  fun _ _ ht => (minds_bcpybk tblk fblk ts fs n ht).mono fun _ _ _ h =>
    ⟨h.1.shared,h.1.size,h.2.resolve_right fun h => absurd hn (not_lt.2 h.2),h.1.told⟩

theorem KeepsFacts.copied (tblk fblk ts fs n : Int) (type : Inf) (val : Int) (hf : KeepsFacts (f ())) :
    KeepsFacts (bcpybk tblk fblk ts fs n >>= fun _ => bstinf tblk type val >>= f) := by
  intro c t ht
  refine (minds_bcpybk tblk fblk ts fs n ht).bind fun _ c1 t1 h1 => ?_
  obtain ⟨h1,hcounted | ⟨hl,-⟩⟩ := h1
  · exact KeepsFacts.bind (keepsFacts_bstinf _ _ _) (fun _ => hf) c1 t1 ⟨h1.shared,h1.size,hcounted,h1.told⟩
  · refine (minds_bstinf tblk type val hl).bind fun _ c2 t2 h2 => ?_
    obtain ⟨rfl,rfl⟩ := h2
    exact hf _ _ ⟨h1.shared,h1.size,rfl,h1.told⟩

theorem sp_pos (hcap : 3 ≤ ZMXKEY) : (0 : Int) < sp ∧ (0 : Int) < sp2 := by
  unfold sp2 sp
  split <;> omega

@[simp] theorem keepsFacts_bsptbk (hcap : 3 ≤ ZMXKEY) (blk : Int) : KeepsFacts (bsptbk blk) := by
  have hcopy := fun t f ts fs => keepsFacts_bcpybk t f ts fs (sp_pos hcap).1
  have hcopy2 := fun t f ts fs => keepsFacts_bcpybk t f ts fs (sp_pos hcap).2
  unfold bsptbk
  with_reducible repeat' first | refine .bind ?_ fun _ => ?_ | refine .ite ?_ ?_ | split
  all_goals simp [hcopy, hcopy2]

end Copy

end Btlib
