import Btlib.Dups.Store

theorem Prog.Outcome.Ends.and {Op σ α : Type} {E : Op → σ → Prop} {Q Q' : α → Prop}
    {x : Prog.Outcome Op σ α} (h : x.Ends E Q) (h' : x.Ends E Q') : x.Ends E fun a => Q a ∧ Q' a := by
  cases x with
  | done a => exact ⟨h,h'⟩
  | stuck o s => exact h
  | hung => exact h

namespace Btlib

variable [Build] {s s' : St} {fs fs' D D' os used : List Int} {n n' : Int → Nat}
  {live live' : Finset (Int × Nat)} {ent ent' : Int × Nat → DKey} {a b c : Int} {d : DKey} {p q : Int × Nat}
  {E : Op → Disk → Prop}

namespace Dups

theorem ends_mkdblk (hb : Sized) (h : Dups s fs D os n live ent) (hE : ∀ o d, NoBlock o d → E o d) :
    (exec (mkdblk ZDUP) s).Ends E fun r => ∃ fs', Dups r.2 fs' (r.1 :: D) os (Function.update n r.1 0) live ent ∧
      Apart s r.2 os ∧ r.1 ∉ D ∧ (r.2.disk.block r.1).nxblk = ZNULL ∧ (r.2.disk.block r.1).nblks = ZNULL ∧
      r.2.disk.block s.ctx.super.scroot = s.disk.block s.ctx.super.scroot ∧
      ∀ c ∈ D, r.2.disk.block c = s.disk.block c := by
  unfold mkdblk
  rw [exec_bind]
  refine (ends_bgtfre h.store hE).bind fun r hr => ?_
  obtain ⟨fs',hg,-⟩ := hr
  have hsize := hg.reaches hb.word hb.block h.size
  obtain ⟨b,s1⟩ := r
  dsimp only at hg hsize ⊢
  have hhas : s1.disk.Has b := hg.store.has_used List.mem_cons_self
  have hnd := List.nodup_cons.1 hg.store.nodup_used
  have hbD : b ∉ D := fun hD => hnd.1 (List.mem_append_left _ hD)
  have hbo : b ∉ os := fun ho => hnd.1 (List.mem_append_right _ ho)
  have hne : b ≠ ZNULL := by
    have := hhas.1
    change b ≠ -1
    omega
  have hpos : 0 < b := by
    have h0 := hhas.1
    have hne : b ≠ 0 := fun h0 => hbo (h0 ▸ h.super)
    omega
  have hfits : Fits (b * ZBLKSZ) := by
    have hlt := hhas.2
    have hle : b * (ZBLKSZ : Int) ≤ s1.disk.size * ZBLKSZ :=
      Int.mul_le_mul_of_nonneg_right hlt.le (Int.natCast_nonneg _)
    have hnn : 0 ≤ b * (ZBLKSZ : Int) := mul_nonneg hpos.le (Int.natCast_nonneg _)
    exact fits_of_le hb.word (by omega) (by omega)
  have haddr : mkdraddr b 0 ≠ 0 := by
    rw [mkdraddr_eq hpos.le hfits le_rfl (Int.natCast_pos.2 ZBLKSZ_pos), add_zero]
    exact (mul_pos hpos (Int.natCast_pos.2 ZBLKSZ_pos)).ne'
  have hleast : (if ZDUP = ZDATA then ZDSGMN else (sizeofDKey : Int)) = sizeofDKey := if_neg (by decide)
  simp only [exec_ite, if_neg hne, if_neg haddr, exec_bind, hleast, exec_bsetbk hhas,
    Prog.Outcome.bind_done, exec_pure]
  have hroot : s.ctx.super.scroot ≠ b := fun hr => hbo (hr ▸ h.root)
  have hold : ∀ c, c ≠ b → (s1.disk.put b ((s1.disk.block b).setBk ZDUP ZDATSZ ZNULL 0 ZNULL sizeofDKey)).block c =
      s.disk.block c := fun c hc => by rw [Disk.block_put, Function.update_of_ne hc, hg.block]
  have hself : (s1.disk.put b ((s1.disk.block b).setBk ZDUP ZDATSZ ZNULL 0 ZNULL sizeofDKey)).block b =
      (s1.disk.block b).setBk ZDUP ZDATSZ ZNULL 0 ZNULL sizeofDKey := by
    rw [Disk.block_put, Function.update_self]
  have hneD : ∀ c ∈ D, c ≠ b := fun c hc hcb => hbD (hcb ▸ hc)
  refine ⟨fs',⟨hg.store.put List.mem_cons_self _,hsize,h.super,hg.root ▸ h.root,?_,?_,?_,?_,?_,?_⟩,
    ⟨hg.ctx,hg.root,hg.mode,fun c hc => ?_⟩,hbD,?_,?_,hold _ hroot,fun c hc => hold c (hneD c hc)⟩
  · intro c hc
    rcases List.mem_cons.1 hc with rfl | hcD
    · have hnone : (live.filter fun p => p.1 = c) = ∅ :=
        Finset.filter_eq_empty_iff.2 fun p hp hpc => hbD (hpc ▸ (h.seg p hp).1)
      rw [hself, hnone, Function.update_self]
      refine ⟨rfl,?_,by simp,?_,rfl⟩
      · simp [Block.setBk]
      · simp [Block.setBk]
    · rw [hold c (hneD c hcD), Function.update_of_ne (hneD c hcD)]
      exact h.block c hcD
  · intro c hc
    rcases List.mem_cons.1 hc with rfl | hcD
    · rw [hself]
      exact Or.inl rfl
    · rw [hold c (hneD c hcD)]
      refine (h.nxblk c hcD).imp_right fun hx => ⟨List.mem_cons_of_mem _ hx.1,?_⟩
      rw [hold _ (hneD _ hx.1), hx.2]
  · intro c hc
    rcases List.mem_cons.1 hc with rfl | hcD
    · rw [hself]
      exact Or.inl rfl
    · rw [hold c (hneD c hcD)]
      refine (h.nblks c hcD).imp_right fun hx => ⟨List.mem_cons_of_mem _ hx.1,?_⟩
      rw [hold _ (hneD _ hx.1), hx.2]
  · dsimp only
    rw [hg.root, hold _ hroot]
    refine h.head.imp_right fun hx => ⟨List.mem_cons_of_mem _ hx.1,?_⟩
    rw [hold _ (hneD _ hx.1), hx.2]
  · dsimp only
    rw [hg.root, hold _ hroot]
    exact h.data
  · intro p hp
    obtain ⟨hD,hlt,he,hf⟩ := h.seg p hp
    dsimp only
    rw [hold _ (hneD _ hD), Function.update_of_ne (hneD _ hD)]
    exact ⟨List.mem_cons_of_mem _ hD,hlt,he,hf⟩
  · exact ⟨(s.disk.block c).nxdup,hold c fun hcb => hbo (hcb ▸ hc)⟩
  · rw [hself]
    rfl
  · rw [hself]
    rfl

theorem relinked (h : Dups s fs D os n live ent) (hD : b ∈ D) {d : Disk} (hsize : d.size = s.disk.size)
    (hroot : d.block s.ctx.super.scroot = { s.disk.block s.ctx.super.scroot with nxdup := b })
    (hother : ∀ c, c ∉ D → c ≠ s.ctx.super.scroot → d.block c = s.disk.block c)
    (hword : ∀ c ∈ D, ∃ x y, d.block c = { s.disk.block c with nxblk := x, nblks := y })
    (hnxblk : ∀ b ∈ D, (d.block b).nxblk = ZNULL ∨
      (d.block b).nxblk ∈ D ∧ (d.block (d.block b).nxblk).nblks = b)
    (hnblks : ∀ b ∈ D, (d.block b).nblks = ZNULL ∨
      (d.block b).nblks ∈ D ∧ (d.block (d.block b).nblks).nxblk = b)
    (hhead : (d.block b).nblks = ZNULL) :
    Dups ⟨s.ctx,d⟩ fs D os n live ent ∧ Apart s ⟨s.ctx,d⟩ os := by
  refine ⟨⟨h.store.transfer hsize (fun c hc => ?_) rfl rfl,hsize ▸ h.size,h.super,h.root,?_,hnxblk,hnblks,?_,?_,?_⟩,
    rfl,rfl,rfl,fun c hc => ?_⟩
  · have hcu : c ∉ D ++ os := fun hcu => h.store.not_mem_free hcu hc
    refine hother c (fun hcD => hcu (List.mem_append_left _ hcD)) ?_
    exact fun hcr => hcu (hcr ▸ List.mem_append_right _ h.root)
  · intro c hc
    obtain ⟨x,y,hxy⟩ := hword c hc
    have hdup := h.block c hc
    rw [hxy]
    exact ⟨hdup.type,hdup.nkeys,hdup.room,hdup.misc,hdup.least⟩
  · dsimp only
    rw [hroot]
    exact Or.inr ⟨hD,hhead⟩
  · dsimp only
    rw [hroot]
    exact h.data
  · intro p hp
    obtain ⟨hDp,hlt,he,hf⟩ := h.seg p hp
    obtain ⟨x,y,hxy⟩ := hword p.1 hDp
    refine ⟨hDp,hlt,?_,hf⟩
    dsimp only
    rw [hxy]
    exact ⟨he.size,he.next,he.data⟩
  · by_cases hcr : c = s.ctx.super.scroot
    · subst hcr
      exact ⟨b,hroot⟩
    · exact ⟨(s.disk.block c).nxdup,hother c (fun hcD => h.not_mem_os hcD hc) hcr⟩

theorem setHead (h : Dups s fs D os n live ent) (hD : b ∈ D) (hnb : (s.disk.block b).nblks = ZNULL) :
    Dups ⟨s.ctx,s.disk.put s.ctx.super.scroot ((s.disk.block s.ctx.super.scroot).setInf .ZNXDUP b)⟩ fs D os n
      live ent ∧
      Apart s ⟨s.ctx,s.disk.put s.ctx.super.scroot ((s.disk.block s.ctx.super.scroot).setInf .ZNXDUP b)⟩ os := by
  have hold : ∀ c, c ≠ s.ctx.super.scroot →
      (s.disk.put s.ctx.super.scroot ((s.disk.block s.ctx.super.scroot).setInf .ZNXDUP b)).block c =
        s.disk.block c := fun c hc => by rw [Disk.block_put, Function.update_of_ne hc]
  refine h.relinked hD rfl ?_ (fun c _ hc => hold c hc) (fun c hc => ⟨_,_,hold c (h.ne_root hc)⟩)
    (fun c hc => ?_) (fun c hc => ?_) ?_
  · rw [Disk.block_put, Function.update_self]
    rfl
  · rw [hold c (h.ne_root hc)]
    refine (h.nxblk c hc).imp_right fun hx => ⟨hx.1,?_⟩
    rw [hold _ (h.ne_root hx.1), hx.2]
  · rw [hold c (h.ne_root hc)]
    refine (h.nblks c hc).imp_right fun hx => ⟨hx.1,?_⟩
    rw [hold _ (h.ne_root hx.1), hx.2]
  · rw [hold b (h.ne_root hD), hnb]

theorem pushHead (h : Dups s fs D os n live ent) (hD : b ∈ D) (haD : a ∈ D) (hab : a ≠ b)
    (hnx : (s.disk.block b).nxblk = ZNULL) (hnb : (s.disk.block b).nblks = ZNULL)
    (hna : (s.disk.block a).nblks = ZNULL) {d d' : Disk}
    (hd : d = (s.disk.put b ((s.disk.block b).setInf .ZNXBLK a)).put a ((s.disk.block a).setInf .ZNBLKS b))
    (hd' : d' = d.put s.ctx.super.scroot ((s.disk.block s.ctx.super.scroot).setInf .ZNXDUP b)) :
    Dups ⟨s.ctx,d'⟩ fs D os n live ent ∧ Apart s ⟨s.ctx,d'⟩ os := by
  have hself : d'.block b = { s.disk.block b with nxblk := a } := by
    rw [hd', hd, Disk.block_put, Function.update_of_ne (h.ne_root hD), Disk.block_put,
      Function.update_of_ne hab.symm, Disk.block_put, Function.update_self]
    rfl
  have hnext : d'.block a = { s.disk.block a with nblks := b } := by
    rw [hd', hd, Disk.block_put, Function.update_of_ne (h.ne_root haD), Disk.block_put, Function.update_self]
    rfl
  have hold : ∀ c, c ≠ s.ctx.super.scroot → c ≠ a → c ≠ b → d'.block c = s.disk.block c := by
    intro c hr ha hb
    rw [hd', hd, Disk.block_put, Function.update_of_ne hr, Disk.block_put, Function.update_of_ne ha,
      Disk.block_put, Function.update_of_ne hb]
  -- no block is linked to the new one yet, nor back to what was the first
  have hnob : ∀ c ∈ D, (s.disk.block c).nxblk ≠ b ∧ (s.disk.block c).nblks ≠ b := by
    intro c hc
    constructor
    · intro heq
      rcases h.nxblk c hc with hx | ⟨-,hx⟩
      · exact h.ne_null hD (heq.symm.trans hx)
      · rw [heq, hnb] at hx
        exact h.ne_null hc hx.symm
    · intro heq
      rcases h.nblks c hc with hx | ⟨-,hx⟩
      · exact h.ne_null hD (heq.symm.trans hx)
      · rw [heq, hnx] at hx
        exact h.ne_null hc hx.symm
  have hnoa : ∀ c ∈ D, (s.disk.block c).nxblk ≠ a := by
    intro c hc heq
    rcases h.nxblk c hc with hx | ⟨-,hx⟩
    · exact h.ne_null haD (heq.symm.trans hx)
    · rw [heq, hna] at hx
      exact h.ne_null hc hx.symm
  refine h.relinked hD ?_ ?_ (fun c hc hr => ?_) (fun c hc => ?_) (fun c hc => ?_) (fun c hc => ?_) ?_
  · rw [hd', hd]
    rfl
  · rw [hd', Disk.block_put, Function.update_self]
    rfl
  · exact hold c hr (fun hca => hc (hca ▸ haD)) fun hcb => hc (hcb ▸ hD)
  · by_cases hcb : c = b
    · exact ⟨a,(s.disk.block b).nblks,by rw [hcb, hself]⟩
    · by_cases hca : c = a
      · exact ⟨(s.disk.block a).nxblk,b,by rw [hca, hnext]⟩
      · exact ⟨_,_,hold c (h.ne_root hc) hca hcb⟩
  · by_cases hcb : c = b
    · rw [hcb, hself]
      refine Or.inr ⟨haD,?_⟩
      dsimp only
      rw [hnext]
    · have hsame : (d'.block c).nxblk = (s.disk.block c).nxblk := by
        by_cases hca : c = a
        · rw [hca, hnext]
        · rw [hold c (h.ne_root hc) hca hcb]
      rw [hsame]
      refine (h.nxblk c hc).imp_right fun hx => ⟨hx.1,?_⟩
      rw [hold _ (h.ne_root hx.1) (hnoa c hc) (hnob c hc).1, hx.2]
  · by_cases hca : c = a
    · rw [hca, hnext]
      refine Or.inr ⟨hD,?_⟩
      dsimp only
      rw [hself]
    · have hsame : (d'.block c).nblks = (s.disk.block c).nblks := by
        by_cases hcb : c = b
        · rw [hcb, hself]
        · rw [hold c (h.ne_root hc) hca hcb]
      rw [hsame]
      refine (h.nblks c hc).imp_right fun hx => ⟨hx.1,?_⟩
      have hnb' := (hnob c hc).2
      by_cases hxa : (s.disk.block c).nblks = a
      · rw [hxa, hnext]
        rw [hxa] at hx
        exact hx.2
      · rw [hold _ (h.ne_root hx.1) hxa hnb', hx.2]
  · rw [hself]
    exact hnb

theorem binsdtLoop_room (hb : Sized) (h : Dups s fs D os n live ent) (hD : b ∈ D)
    (hroom : (n b + 1) * entSz ≤ ZDATSZ) (hd : d.Fits) (m : Int) (k : Nat) :
    ∃ s', exec (binsdtLoop ZDUP d.bytes m (k + 1) b d.bytes.length d.bytes.length 0) s =
        .done (addr (b, n b), s') ∧ (b, n b) ∉ live ∧
      Dups s' fs D os (Function.update n b (n b + 1)) (insert (b, n b) live)
        (Function.update ent (b, n b) d) ∧ Apart s s' os := by
  obtain ⟨s',hex,hnew,hdup,ha⟩ := h.insdat hD hroom hd
  have hlen := DKey.length_bytes hd.short
  have hent : ((entSz : Nat) : Int) = ZDOVRH + sizeofDKey := by simp [entSz]
  have hfree : (d.bytes.length : Int) + ZDOVRH ≤ ZDATSZ - (s.disk.block b).nkeys := by
    rw [hlen, (h.block b hD).nkeys]
    have : ((n b * entSz + entSz : Nat) : Int) ≤ ZDATSZ := by
      rw [← Nat.succ_mul]
      exact_mod_cast hroom
    push_cast at this
    rw [hent] at this ⊢
    omega
  have hle : n b * entSz < ZBLKSZ := by
    have h1 : n b * entSz + entSz ≤ ZDATSZ := by
      rw [← Nat.succ_mul]
      exact hroom
    have h2 := ZDATSZ_le
    have h3 := entSz_pos
    omega
  have hfits : Fits (b * ZBLKSZ) := by
    have := h.fits_block hb hD (i := 0) le_rfl (Int.natCast_pos.2 ZBLKSZ_pos)
    rwa [add_zero] at this
  have haddr : mkdraddr b ((n b * entSz : Nat) : Int) = addr (b, n b) :=
    mkdraddr_eq (h.pos hD).le hfits (Int.natCast_nonneg _) (by exact_mod_cast hle)
  have hne : ((n b * entSz : Nat) : Int) ≠ ZNULL := by
    have := Int.natCast_nonneg (n b * entSz)
    change _ ≠ -1
    omega
  refine ⟨s',?_,hnew,hdup,ha⟩
  simp only [binsdtLoop, exec_bind, exec_bgtinf (h.has hD), Prog.Outcome.bind_done, Block.getInf_ZNKEYS,
    exec_ite, if_pos hfree, sub_self, Int.toNat_natCast, slice_self, hex, if_neg hne, exec_pure, haddr]

theorem ends_binsdtLoop_full (hb : Sized) (h : Dups s fs D os n live ent) (hD : a ∈ D)
    (hna : (s.disk.block a).nblks = ZNULL) (hfull : ZDATSZ < (n a + 1) * entSz) (hd : d.Fits)
    (hE : ∀ o d, NoBlock o d → E o d) (k : Nat) :
    (exec (binsdtLoop ZDUP d.bytes sizeofDKey (k + 2) a d.bytes.length d.bytes.length 0) s).Ends E fun r =>
      ∃ fs' D' n' p, p ∉ live ∧ r.1 = addr p ∧
        Dups r.2 fs' D' os n' (insert p live) (Function.update ent p d) ∧ Apart s r.2 os := by
  have hlen := DKey.length_bytes hd.short
  have hent : ((entSz : Nat) : Int) = ZDOVRH + sizeofDKey := by simp [entSz]
  have hlt : (ZDATSZ : Int) - (s.disk.block a).nkeys < ZDOVRH + sizeofDKey := by
    rw [(h.block a hD).nkeys]
    have : (ZDATSZ : Int) < ((n a * entSz + entSz : Nat) : Int) := by
      rw [← Nat.succ_mul]
      exact_mod_cast hfull
    push_cast at this
    rw [hent] at this ⊢
    omega
  have hnofit : ¬ (d.bytes.length : Int) + ZDOVRH ≤ ZDATSZ - (s.disk.block a).nkeys := by
    rw [hlen]
    omega
  rw [binsdtLoop]
  simp only [exec_bind, exec_bgtinf (h.has hD), Prog.Outcome.bind_done, Block.getInf_ZNKEYS, exec_ite,
    if_neg hnofit, if_pos hlt]
  refine (h.ends_mkdblk hb hE).bind fun r hr => ?_
  obtain ⟨fs',h1,ha1,hnD,hnx,hnb,hroot,hold⟩ := hr
  obtain ⟨b,s1⟩ := r
  dsimp only at h1 ha1 hnD hnx hnb hroot hold ⊢
  have hbD : b ∈ b :: D := List.mem_cons_self
  have haD : a ∈ b :: D := List.mem_cons_of_mem _ hD
  have hab : a ≠ b := fun hab => hnD (hab ▸ hD)
  have hne : b ≠ ZNULL := h1.ne_null hbD
  have hhas := h1.has hbD
  have hhasa := h1.has haD
  have hhasr := h1.has_root
  rw [if_neg hne]
  have hna1 : (s1.disk.block a).nblks = ZNULL := by rw [hold a hD, hna]
  obtain ⟨h2,ha2⟩ := h1.pushHead hbD haD hab hnx hnb hna1 rfl rfl
  obtain ⟨s3,hex,hnew,h3,ha3⟩ := h2.binsdtLoop_room hb hbD
    (by rw [Function.update_self, zero_add, one_mul]; exact hb.entry) hd sizeofDKey k
  have hputa : (s1.disk.put b ((s1.disk.block b).setInf .ZNXBLK a)).block a = s1.disk.block a := by
    rw [Disk.block_put, Function.update_of_ne hab]
  have hputr : ((s1.disk.put b ((s1.disk.block b).setInf .ZNXBLK a)).put a
      ((s1.disk.block a).setInf .ZNBLKS b)).block s1.ctx.super.scroot = s1.disk.block s1.ctx.super.scroot := by
    rw [Disk.block_put, Function.update_of_ne (h1.ne_root haD).symm, Disk.block_put,
      Function.update_of_ne (h1.ne_root hbD).symm]
  have hstep1 : exec (bstinf b .ZNXBLK a) s1 =
      .done ((), ⟨s1.ctx,s1.disk.put b ((s1.disk.block b).setInf .ZNXBLK a)⟩) := exec_bstinf hhas _ _
  have hstep2 : exec (bstinf a .ZNBLKS b) ⟨s1.ctx,s1.disk.put b ((s1.disk.block b).setInf .ZNXBLK a)⟩ =
      .done ((), ⟨s1.ctx,(s1.disk.put b ((s1.disk.block b).setInf .ZNXBLK a)).put a
        ((s1.disk.block a).setInf .ZNBLKS b)⟩) := by
    rw [exec_bstinf (by exact hhasa), hputa]
  have hstep3 : exec (bstinf s1.ctx.super.scroot (listInf ZDUP) b) ⟨s1.ctx,(s1.disk.put b
      ((s1.disk.block b).setInf .ZNXBLK a)).put a ((s1.disk.block a).setInf .ZNBLKS b)⟩ =
      .done ((), ⟨s1.ctx,((s1.disk.put b ((s1.disk.block b).setInf .ZNXBLK a)).put a
        ((s1.disk.block a).setInf .ZNBLKS b)).put s1.ctx.super.scroot
          ((s1.disk.block s1.ctx.super.scroot).setInf .ZNXDUP b)⟩) := by
    rw [exec_bstinf (by exact hhasr), hputr]
    rfl
  simp only [hstep1, exec_get, Prog.Outcome.bind_done, hstep2, hstep3, hex, Prog.Outcome.ends_done]
  exact ⟨_,_,_,_,hnew,rfl,h3,(ha1.trans ha2).trans ha3⟩

theorem ends_binsdt (hb : Sized) (h : Dups s fs D os n live ent) (hd : d.Fits)
    (hE : ∀ o d, NoBlock o d → E o d) :
    (exec (binsdt ZDUP d.bytes) s).Ends E fun r => ∃ fs' D' n' p, p ∉ live ∧ r.1 = addr p ∧
      Dups r.2 fs' D' os n' (insert p live) (Function.update ent p d) ∧ Apart s r.2 os := by
  obtain ⟨k,hk⟩ : ∃ k, FUEL = k + 2 := ⟨FUEL - 2,by have := hb.fuel; omega⟩
  have hroot := h.has_root
  have hlist : (s.disk.block s.ctx.super.scroot).getInf (listInf ZDUP) =
      (s.disk.block s.ctx.super.scroot).nxdup := rfl
  simp only [binsdt, exec_bind, exec_get, Prog.Outcome.bind_done, exec_bgtinf hroot, hlist, exec_ite, hk]
  rcases h.head with hnull | ⟨hD,hna⟩
  · rw [if_pos hnull]
    refine (h.ends_mkdblk hb hE).bind fun r hr => ?_
    obtain ⟨fs',h1,ha1,hnD,hnx,hnb,hroot1,hold⟩ := hr
    obtain ⟨b,s1⟩ := r
    dsimp only at h1 ha1 hnD hnx hnb hroot1 hold ⊢
    have hbD : b ∈ b :: D := List.mem_cons_self
    obtain ⟨h2,ha2⟩ := h1.setHead hbD hnb
    obtain ⟨s3,hex,hnew,h3,ha3⟩ := h2.binsdtLoop_room hb hbD
      (by rw [Function.update_self, zero_add, one_mul]; exact hb.entry) hd sizeofDKey (k + 1)
    have hstep : exec (bstinf s.ctx.super.scroot (listInf ZDUP) b) s1 =
        .done ((), ⟨s1.ctx,s1.disk.put s1.ctx.super.scroot
          ((s1.disk.block s1.ctx.super.scroot).setInf .ZNXDUP b)⟩) := by
      rw [← ha1.root, exec_bstinf h1.has_root]
      rfl
    have htype := (h2.block b hbD).type
    have hleast := (h2.block b hbD).least
    dsimp only at htype hleast
    rw [if_neg (h1.ne_null hbD), if_pos hnull, hstep]
    simp only [Prog.Outcome.bind_done, exec_bgtinf (h2.has hbD), Block.getInf_ZBTYPE, htype, ne_eq,
      not_true_eq_false, if_false, Block.getInf_ZNXDUP, hleast, hex, Prog.Outcome.ends_done]
    exact ⟨_,_,_,_,hnew,rfl,h3,(ha1.trans ha2).trans ha3⟩
  · have hne := h.ne_null hD
    have hdup := h.block _ hD
    rw [if_neg hne]
    simp only [exec_pure, Prog.Outcome.bind_done, if_neg hne, exec_bgtinf (h.has hD), Block.getInf_ZBTYPE,
      hdup.type, ne_eq, not_true_eq_false, if_false, Block.getInf_ZNXDUP, hdup.least]
    rcases Nat.lt_or_ge ZDATSZ ((n (s.disk.block s.ctx.super.scroot).nxdup + 1) * entSz) with hfull | hroom
    · exact h.ends_binsdtLoop_full hb hD hna hfull hd hE k
    · obtain ⟨s',hex,hnew,h1,ha1⟩ := h.binsdtLoop_room hb hD hroom hd sizeofDKey (k + 1)
      rw [hex]
      exact ⟨_,_,_,_,hnew,rfl,h1,ha1⟩

end Dups

end Btlib
