import Btlib.Data.Drop

namespace Btlib

open DoubleLinks

variable [Build] {s s' : St} {fs fs' D os : List Int} {ps rs : List Seg} {p : Seg} {a b c : Int} {data : List Byte}
  {E : Op → Disk → Prop}

namespace Stored

theorem ends_mkdblk (hz : SizedData) (h : Stored s fs D os ps) (hE : ∀ o d, NoBlock o d → E o d) :
    (exec (mkdblk ZDATA) s).Ends E fun r => ∃ fs', Stored r.2 fs' (r.1 :: D) os ps ∧ Aside s r.2 os ∧ r.1 ∉ D ∧
      Spared s r.2 ps ∧ (r.2.disk.block r.1).nkeys = 0 ∧ (r.2.disk.block r.1).nxblk = ZNULL ∧
      (r.2.disk.block r.1).nblks = ZNULL ∧ (∀ c ∈ D, r.2.disk.block c = s.disk.block c) ∧
      r.2.disk.block s.ctx.super.scroot = s.disk.block s.ctx.super.scroot := by
  unfold mkdblk
  rw [exec_bind]
  refine (ends_bgtfre h.store hE).bind fun r hr => ?_
  obtain ⟨fs',hg,-⟩ := hr
  have hsize := hg.reaches hz.word hz.block h.size
  obtain ⟨b,s1⟩ := r
  dsimp only at hg hsize ⊢
  have hhas : s1.disk.Has b := hg.store.has_used List.mem_cons_self
  have hnd := List.nodup_cons.1 hg.store.nodup_used
  have hbD : b ∉ D := fun hD => hnd.1 (List.mem_append_left _ hD)
  have hbo : b ∉ os := fun ho => hnd.1 (List.mem_append_right _ ho)
  have hpos : 0 < b := by
    have h0 := hhas.1
    have hne : b ≠ 0 := fun h0 => hbo (h0 ▸ h.super)
    omega
  have hfits : Fits (b * ZBLKSZ) := by
    have hlt := hhas.2
    have hle : b * (ZBLKSZ : Int) ≤ s1.disk.size * ZBLKSZ :=
      Int.mul_le_mul_of_nonneg_right hlt.le (Int.natCast_nonneg _)
    have hnn : 0 ≤ b * (ZBLKSZ : Int) := mul_nonneg hpos.le (Int.natCast_nonneg _)
    exact fits_of_le hz.word (by omega) (by omega)
  have haddr : mkdraddr b 0 ≠ 0 := by
    rw [mkdraddr_eq hpos.le hfits le_rfl (Int.natCast_pos.2 ZBLKSZ_pos), add_zero]
    exact (mul_pos hpos (Int.natCast_pos.2 ZBLKSZ_pos)).ne'
  simp only [if_neg hhas.ne_null, if_neg haddr, true_or, exec_bind, if_true, exec_bsetbk hhas,
    Prog.Outcome.bind_done, exec_pure]
  have hroot : s.ctx.super.scroot ≠ b := fun hr => hbo (hr ▸ h.root)
  have hold : ∀ c, c ≠ b → (s1.disk.put b ((s1.disk.block b).setBk ZDATA ZDATSZ ZNULL 0 ZNULL ZDSGMN)).block c =
      s.disk.block c := fun c hc => by rw [Disk.block_put, Function.update_of_ne hc, hg.block]
  have hself : (s1.disk.put b ((s1.disk.block b).setBk ZDATA ZDATSZ ZNULL 0 ZNULL ZDSGMN)).block b =
      (s1.disk.block b).setBk ZDATA ZDATSZ ZNULL 0 ZNULL ZDSGMN := by
    rw [Disk.block_put, Function.update_self]
  have hneD : ∀ c ∈ D, c ≠ b := fun c hc hcb => hbD (hcb ▸ hc)
  refine ⟨fs',⟨hg.store.put List.mem_cons_self _,hsize,h.super,hg.root ▸ h.root,?_,?_,?_,?_,h.apart⟩,
    ⟨hg.ctx,hg.root,hg.mode,fun c hc => ?_⟩,hbD,fun p hp next hat => ?_,?_,?_,?_,
    fun c hc => hold c (hneD c hc),hold _ hroot⟩
  · intro c hc
    rcases List.mem_cons.1 hc with rfl | hcD
    · have hload : load c ps = 0 := load_eq_zero.2 fun p hp hpc => hbD (hpc ▸ (h.seg p hp).1)
      rw [hself, hload]
      refine ⟨rfl,?_,?_,?_,rfl⟩
      · simp [Block.setBk]
      · simp [Block.setBk]
      · simp [Block.setBk]
    · rw [hold c (hneD c hcD)]
      exact h.block c hcD
  · refine (h.strung.congr (fun c hc => ?_) fun c hc => ?_).alone ?_ ?_
    · rw [hold c (hneD c hc)]
    · rw [hold c (hneD c hc)]
    · rw [hself]
      rfl
    · rw [hself]
      rfl
  · dsimp only
    rw [hg.root, hold _ hroot]
    refine h.head.imp_right fun hx => ⟨List.mem_cons_of_mem _ hx.1,?_⟩
    rw [hold _ (hneD _ hx.1), hx.2]
  · intro p hp
    obtain ⟨hD,hle⟩ := h.seg p hp
    dsimp only
    rw [hold _ (hneD _ hD)]
    exact ⟨List.mem_cons_of_mem _ hD,hle⟩
  · exact ⟨(s.disk.block c).nxblk,hold c fun hcb => hbo (hcb ▸ hc)⟩
  · unfold Seg.At at hat ⊢
    dsimp only
    rwa [hold _ (hneD _ (h.seg p hp).1)]
  · rw [hself]
    rfl
  · rw [hself]
    rfl
  · rw [hself]
    rfl

-- Only the links of the data blocks change, and the root names the block `b` as the first.
theorem relinked (h : Stored s fs D os ps) (hD : b ∈ D) {d : Disk} (hsize : d.size = s.disk.size)
    (hroot : d.block s.ctx.super.scroot = { s.disk.block s.ctx.super.scroot with nxblk := b })
    (hother : ∀ c, c ∉ D → c ≠ s.ctx.super.scroot → d.block c = s.disk.block c)
    (hword : ∀ c ∈ D, ∃ x y, d.block c = { s.disk.block c with nxblk := x, nblks := y })
    (hstrung : Strung (fun b => (d.block b).nxblk) (fun b => (d.block b).nblks) ZNULL D)
    (hhead : (d.block b).nblks = ZNULL) :
    Stored ⟨s.ctx,d⟩ fs D os ps ∧ Spared s ⟨s.ctx,d⟩ ps ∧ Aside s ⟨s.ctx,d⟩ os := by
  refine ⟨⟨h.store.transfer hsize (fun c hc => ?_) rfl rfl,hsize ▸ h.size,h.super,h.root,?_,hstrung,?_,?_,h.apart⟩,
    fun p hp next hat => ?_,rfl,rfl,rfl,fun c hc => ?_⟩
  · have hcu : c ∉ D ++ os := fun hcu => h.store.not_mem_free hcu hc
    refine hother c (fun hcD => hcu (List.mem_append_left _ hcD)) ?_
    exact fun hcr => hcu (hcr ▸ List.mem_append_right _ h.root)
  · intro c hc
    obtain ⟨x,y,hxy⟩ := hword c hc
    have hdata := h.block c hc
    rw [hxy]
    exact ⟨hdata.type,hdata.taken,hdata.room,hdata.misc,hdata.least⟩
  · dsimp only
    rw [hroot]
    exact Or.inr ⟨hD,hhead⟩
  · intro p hp
    obtain ⟨hDp,hle⟩ := h.seg p hp
    obtain ⟨x,y,hxy⟩ := hword p.blk hDp
    refine ⟨hDp,?_⟩
    dsimp only
    rw [hxy]
    exact hle
  · obtain ⟨x,y,hxy⟩ := hword p.blk (h.seg p hp).1
    unfold Seg.At at hat ⊢
    dsimp only
    rw [hxy]
    exact ⟨hat.size,hat.next,hat.data⟩
  · by_cases hcr : c = s.ctx.super.scroot
    · subst hcr
      exact ⟨b,hroot⟩
    · exact ⟨(s.disk.block c).nxblk,hother c (fun hcD => h.not_mem_os hcD hc) hcr⟩

theorem setHead (h : Stored s fs D os ps) (hD : b ∈ D) (hnb : (s.disk.block b).nblks = ZNULL) {d : Disk}
    (hd : d = s.disk.put s.ctx.super.scroot ((s.disk.block s.ctx.super.scroot).setInf .ZNXBLK b)) :
    Stored ⟨s.ctx,d⟩ fs D os ps ∧ Spared s ⟨s.ctx,d⟩ ps ∧ Aside s ⟨s.ctx,d⟩ os := by
  have hold : ∀ c, c ≠ s.ctx.super.scroot → d.block c = s.disk.block c := fun c hc => by
    rw [hd, Disk.block_put, Function.update_of_ne hc]
  refine h.relinked hD ?_ ?_ (fun c _ hc => hold c hc) (fun c hc => ⟨_,_,hold c (h.ne_root hc)⟩)
    (h.strung.congr (fun c hc => ?_) fun c hc => ?_) ?_
  · rw [hd, Disk.size_put]
  · rw [hd, Disk.block_put, Function.update_self]
    rfl
  · rw [hold c (h.ne_root hc)]
  · rw [hold c (h.ne_root hc)]
  · rw [hold b (h.ne_root hD), hnb]

theorem pushHead (h : Stored s fs D os ps) (hD : b ∈ D) (haD : a ∈ D) (hab : a ≠ b)
    (hnx : (s.disk.block b).nxblk = ZNULL) (hnb : (s.disk.block b).nblks = ZNULL) (hna : (s.disk.block a).nblks = ZNULL)
    {d d' : Disk} (hd : d = (s.disk.put b ((s.disk.block b).setInf .ZNXBLK a)).put a ((s.disk.block a).setInf .ZNBLKS b))
    (hd' : d' = d.put s.ctx.super.scroot ((s.disk.block s.ctx.super.scroot).setInf .ZNXBLK b)) :
    Stored ⟨s.ctx,d'⟩ fs D os ps ∧ Spared s ⟨s.ctx,d'⟩ ps ∧ Aside s ⟨s.ctx,d'⟩ os ∧
      (d'.block b).nkeys = (s.disk.block b).nkeys ∧ (d'.block b).nblks = ZNULL := by
  have hself : d'.block b = { s.disk.block b with nxblk := a } := by
    rw [hd', hd, Disk.block_put, Function.update_of_ne (h.ne_root hD), Disk.block_put,
      Function.update_of_ne hab.symm, Disk.block_put, Function.update_self]
    rfl
  have hnext : d'.block a = { s.disk.block a with nblks := b } := by
    rw [hd', hd, Disk.block_put, Function.update_of_ne (h.ne_root haD), Disk.block_put, Function.update_self]
    rfl
  have hold : ∀ c, c ≠ s.ctx.super.scroot → c ≠ a → c ≠ b → d'.block c = s.disk.block c := by
    intro c hr ha hb
    rw [hd', hd, Disk.block_put, Function.update_of_ne hr, Disk.block_put, Function.update_of_ne ha,
      Disk.block_put, Function.update_of_ne hb]
  have hword : ∀ c ∈ D, d'.block c = { s.disk.block c with
      nxblk := if c = b then a else (s.disk.block c).nxblk
      nblks := if c = a then b else (s.disk.block c).nblks } := by
    intro c hc
    by_cases hcb : c = b
    · rw [hcb, hself, if_pos rfl, if_neg hab.symm]
    · by_cases hca : c = a
      · rw [hca, hnext, if_neg hab, if_pos rfl]
      · rw [hold c (h.ne_root hc) hca hcb, if_neg hcb, if_neg hca]
  have hrel := h.relinked (d := d') hD ?_ ?_ (fun c hc hr => ?_) (fun c hc => ⟨_,_,hword c hc⟩)
    (h.strung.join haD hD h.null_notMem hnx hna (fun c hc => ?_) fun c hc => ?_) ?_
  · exact ⟨hrel.1,hrel.2.1,hrel.2.2,by rw [hself],by rw [hself, hnb]⟩
  · rw [hd', hd]
    rfl
  · rw [hd', Disk.block_put, Function.update_self]
    rfl
  · exact hold c hr (fun hca => hc (hca ▸ haD)) fun hcb => hc (hcb ▸ hD)
  · rw [hword c hc]
  · rw [hword c hc]
  · rw [hself]
    exact hnb

end Stored

end Btlib
