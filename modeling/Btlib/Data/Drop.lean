import Btlib.Data.Store

namespace Btlib

open DoubleLinks

variable [Build] {s s' : St} {fs D os : List Int} {ps : List Seg} {p : Seg} {blk off next : Int} {d : Disk}

-- The root forgets the data block where it was the one to insert into.
def Disk.forget (d : Disk) (root blk : Int) : Disk :=
  if (d.block root).nxblk = blk then d.put root ((d.block root).setInf .ZNXBLK ZNULL) else d

omit [Build] in
@[simp] theorem Disk.size_forget [Build] (d : Disk) (root c : Int) : (d.forget root c).size = d.size := by
  unfold forget
  split <;> rfl

theorem Disk.block_forget {root c : Int} (hc : c ≠ root) : (d.forget root blk).block c = d.block c := by
  unfold forget
  split
  · rw [block_put, Function.update_of_ne hc]
  · rfl

theorem Disk.block_forget_root {root : Int} : (d.forget root blk).block root =
    { d.block root with nxblk := if (d.block root).nxblk = blk then ZNULL else (d.block root).nxblk } := by
  unfold forget
  split
  · rw [block_put, Function.update_self]
    rfl
  · rfl

theorem exec_bmkfre (hblk : s.disk.Has blk) (htype : (s.disk.block blk).btype ≠ ZDUP) : exec (bmkfre blk) s =
    .done ((), ⟨s.ctx.freed blk,s.disk.put blk ((s.disk.block blk).setBk ZFREE 0 s.ctx.super.sfreep 0 0 ZNULL)⟩) := by
  simp [bmkfre, hblk, htype]
  rfl

theorem exec_deldat_free (hblk : s.disk.Has blk) (hroot : s.disk.Has s.ctx.super.scroot)
    (hf : (s.disk.block blk).misc + (rdsz ((s.disk.block blk).bytes off ZDRSZ) + ZDOVRH) = ZDATSZ)
    (hn : (s.disk.block blk).nxblk = ZNULL ∨ s.disk.Has (s.disk.block blk).nxblk)
    (hp : (s.disk.block blk).nblks = ZNULL ∨ s.disk.Has (s.disk.block blk).nblks)
    (htype : ((s.disk.unlink blk).block blk).btype ≠ ZDUP)
    (hd : d = (s.disk.unlink blk).put blk (((s.disk.unlink blk).block blk).setBk ZFREE 0 s.ctx.super.sfreep 0 0 ZNULL)) :
    exec (deldat blk off) s = .done (0, ⟨s.ctx.freed blk,d.forget s.ctx.super.scroot blk⟩) := by
  unfold deldat
  simp only [exec_bind, exec_brdblk, Disk.read_eq hblk, Prog.Outcome.bind_done, exec_mark, exec_bgtinf,
    Block.getInf_ZMISC, hf, if_true, exec_bstinf, Disk.has_put, hblk, Disk.put_put, Disk.block_put,
    Function.update_self, Block.getInf_ZNBLKS, Block.getInf_ZNXBLK]
  have hn' : (((s.disk.block blk).setInf .ZMISC ZDATSZ).setInf .ZNKEYS 0).nxblk = (s.disk.block blk).nxblk := rfl
  have hp' : (((s.disk.block blk).setInf .ZMISC ZDATSZ).setInf .ZNKEYS 0).nblks = (s.disk.block blk).nblks := rfl
  rw [hn', hp', exec_relink, exec_relink]
  · rw [exec_bind]
    change (exec (bmkfre blk) (St.mk s.ctx (s.disk.unlink blk))).bind _ = _
    have hblk' : (s.disk.unlink blk).Has blk := (Disk.has_unlink _ _ _).2 hblk
    have hroot' : (s.disk.unlink blk).Has s.ctx.super.scroot := (Disk.has_unlink _ _ _).2 hroot
    have hrootd : d.Has s.ctx.super.scroot := by
      rw [hd]
      exact hroot'
    rw [exec_bmkfre (s := ⟨s.ctx,s.disk.unlink blk⟩) hblk' htype]
    dsimp only
    rw [← hd]
    have hscroot : (s.ctx.freed blk).super.scroot = s.ctx.super.scroot := rfl
    simp only [Prog.Outcome.bind_done, exec_bind, exec_get, hscroot, exec_bgtinf, hrootd, Block.getInf_ZNXBLK]
    unfold Disk.forget
    by_cases hh : (d.block s.ctx.super.scroot).nxblk = blk
    · rw [if_pos hh.symm, if_pos hh, exec_bind, exec_bstinf (by exact hrootd)]
      simp only [Prog.Outcome.bind_done, exec_bind, exec_writeThrough, exec_pure]
    · rw [if_neg (Ne.symm hh), if_neg hh]
      simp only [Prog.Outcome.bind_done, exec_bind, exec_writeThrough, exec_pure]
  · exact hp.imp_right fun h => (Disk.has_relink _ _ _ _ _).2 h
  · exact hn

namespace Stored

theorem misc_add (hz : SizedData) (h : Stored s fs D os (p :: ps)) (hat : p.At s next) :
    (s.disk.block p.blk).misc + (rdsz ((s.disk.block p.blk).bytes p.off ZDRSZ) + ZDOVRH) = ZDATSZ - load p.blk ps := by
  have hmem : p ∈ p :: ps := List.mem_cons_self
  rw [Block.SegAt.rdsz hz hat (h.length_le hmem), (h.block _ (h.seg p hmem).1).misc, load_cons, if_pos rfl, Seg.size]
  push_cast
  ring

theorem deldat_some (hz : SizedData) (h : Stored s fs D os (p :: ps)) (hat : p.At s next) (hmore : load p.blk ps ≠ 0) :
    ∃ s', exec (deldat p.blk p.off) s = .done (0, s') ∧ Stored s' fs D os ps ∧ Spared s s' ps ∧ Aside s s' os := by
  have hmem : p ∈ p :: ps := List.mem_cons_self
  have hD := (h.seg p hmem).1
  have hdata := h.block _ hD
  have hcons : load p.blk (p :: ps) = p.size + load p.blk ps := by rw [load_cons, if_pos rfl]
  have htaken := hdata.taken
  have hroom := hdata.room
  rw [hcons] at htaken
  have htaken' : (load p.blk ps : Int) ≤ (s.disk.block p.blk).nkeys := by omega
  have hput := h.put hD ((s.disk.block p.blk).setInf .ZMISC (ZDATSZ - load p.blk ps)) ps rfl rfl
    ⟨hdata.type,htaken',hdata.room,rfl,hdata.least⟩ (fun c _ hc => ?_) (fun q hq => ?_)
    (List.pairwise_cons.1 h.apart).2
  · refine ⟨_,exec_deldat (h.has hD) (h.misc_add hz hat).symm (by omega) (by omega),hput.1,
      fun q hq next hat => ?_,hput.2⟩
    unfold Seg.At at hat ⊢
    by_cases hqb : q.blk = p.blk
    · rw [hqb] at hat ⊢
      simp only [Disk.block_put, Function.update_self]
      exact ⟨hat.size,hat.next,hat.data⟩
    · simpa only [Disk.block_put, Function.update_of_ne hqb] using hat
  · rw [load_cons, if_neg (Ne.symm hc), Nat.zero_add]
  · by_cases hqb : q.blk = p.blk
    · have hle := (h.seg q (List.mem_cons_of_mem _ hq)).2
      rw [hqb] at hle
      exact Or.inl ⟨hqb,hle⟩
    · exact Or.inr ⟨hqb,List.mem_cons_of_mem _ hq⟩

theorem deldat_last (hz : SizedData) (h : Stored s fs D os (p :: ps)) (hat : p.At s next) (hlast : load p.blk ps = 0) :
    ∃ s', exec (deldat p.blk p.off) s = .done (0, s') ∧ Stored s' (p.blk :: fs) (D.erase p.blk) os ps ∧
      Spared s s' ps ∧ Aside s s' os := by
  have hmem : p ∈ p :: ps := List.mem_cons_self
  have hD := (h.seg p hmem).1
  have hdata := h.block _ hD
  have hmisc := h.misc_add hz hat
  rw [hlast, Nat.cast_zero, sub_zero] at hmisc
  have hn := (h.strung.next _ hD).imp_right fun hx => h.has hx.1
  have hp := (h.strung.prev _ hD).imp_right fun hx => h.has hx.1
  have hroot : s.ctx.super.scroot ≠ p.blk := (h.ne_root hD).symm
  have hnull : s.ctx.super.scroot ≠ ZNULL := h.has_root.ne_null
  have hdup : ¬ ((s.disk.unlink p.blk).block p.blk).btype = ZDUP := by
    rw [Dups.btype_unlink, hdata.type]
    decide
  have hex := exec_deldat_free (h.has hD) h.has_root hmisc hn hp hdup rfl
  have hblock : ∀ c, c ≠ p.blk → c ≠ ZNULL → (((s.disk.unlink p.blk).put p.blk
      (((s.disk.unlink p.blk).block p.blk).setBk ZFREE 0 s.ctx.super.sfreep 0 0 ZNULL)).block c) =
        { s.disk.block c with
          nblks := if c = (s.disk.block p.blk).nxblk then (s.disk.block p.blk).nblks else (s.disk.block c).nblks
          nxblk := if c = (s.disk.block p.blk).nblks then (s.disk.block p.blk).nxblk else (s.disk.block c).nxblk } := by
    intro c hc h0
    rw [Disk.block_put, Function.update_of_ne hc, Dups.block_unlink hc h0]
  have hother : ∀ c, c ∉ D → c ≠ ZNULL →
      ¬ c = (s.disk.block p.blk).nxblk ∧ ¬ c = (s.disk.block p.blk).nblks := by
    intro c hc h0
    constructor
    · rintro rfl
      exact (h.strung.next _ hD).elim h0 fun hx => hc hx.1
    · rintro rfl
      exact (h.strung.prev _ hD).elim h0 fun hx => hc hx.1
  have hkeep : ∀ c, c ∉ D → c ≠ ZNULL → (((s.disk.unlink p.blk).put p.blk
      (((s.disk.unlink p.blk).block p.blk).setBk ZFREE 0 s.ctx.super.sfreep 0 0 ZNULL)).block c) = s.disk.block c := by
    intro c hc h0
    have hcp : c ≠ p.blk := fun hcp => hc (hcp ▸ hD)
    rw [hblock c hcp h0, if_neg (hother c hc h0).1, if_neg (hother c hc h0).2]
  obtain ⟨d,hd⟩ : ∃ d, d = (s.disk.unlink p.blk).put p.blk
      (((s.disk.unlink p.blk).block p.blk).setBk ZFREE 0 s.ctx.super.sfreep 0 0 ZNULL) := ⟨_,rfl⟩
  rw [← hd] at hex hblock hkeep
  have hself : d.block p.blk =
      ((s.disk.unlink p.blk).block p.blk).setBk ZFREE 0 s.ctx.super.sfreep 0 0 ZNULL := by
    rw [hd, Disk.block_put, Function.update_self]
  have hsize : d.size = s.disk.size := by
    rw [hd, Disk.size_put]
    simp only [Disk.unlink, Disk.size_relink, Disk.size_put]
  have hrootD : s.ctx.super.scroot ∉ D := fun hmem => h.not_mem_os hmem h.root
  have hrootBlock := hkeep _ hrootD hnull
  have hfin : ∀ c, c ≠ s.ctx.super.scroot → (d.forget s.ctx.super.scroot p.blk).block c = d.block c := fun c hc =>
    Disk.block_forget hc
  have hfinD : ∀ c ∈ D, (d.forget s.ctx.super.scroot p.blk).block c = d.block c := fun c hc => hfin c (h.ne_root hc)
  have hfinRoot : (d.forget s.ctx.super.scroot p.blk).block s.ctx.super.scroot = { s.disk.block s.ctx.super.scroot with
      nxblk := if (s.disk.block s.ctx.super.scroot).nxblk = p.blk then ZNULL
        else (s.disk.block s.ctx.super.scroot).nxblk } := by
    rw [Disk.block_forget_root, hrootBlock]
  have hperm : (fs ++ (D ++ os)).Perm (p.blk :: fs ++ (D.erase p.blk ++ os)) :=
    (((List.perm_cons_erase hD).append_right os).append_left fs).trans List.perm_middle
  have herase : ∀ {c}, c ∈ D.erase p.blk → c ≠ p.blk ∧ c ∈ D := fun hc => (List.Nodup.mem_erase_iff h.nodup).1 hc
  have hblk : ∀ c ∈ D, c ≠ p.blk → (d.forget s.ctx.super.scroot p.blk).block c = { s.disk.block c with
      nblks := if c = (s.disk.block p.blk).nxblk then (s.disk.block p.blk).nblks else (s.disk.block c).nblks
      nxblk := if c = (s.disk.block p.blk).nblks then (s.disk.block p.blk).nxblk else (s.disk.block c).nxblk } :=
    fun c hc hcp => by rw [hfinD c hc, hblock c hcp (h.ne_null hc)]
  have hqs : ∀ q ∈ ps, q.blk ≠ p.blk ∧ q.blk ∈ D := fun q hq =>
    ⟨load_eq_zero.1 hlast q hq,(h.seg q (List.mem_cons_of_mem _ hq)).1⟩
  refine ⟨_,hex,⟨⟨?_,?_,?_,?_,?_⟩,?_,h.super,h.root,?_,?_,?_,?_,(List.pairwise_cons.1 h.apart).2⟩,?_,
    ⟨rfl,rfl,rfl,?_⟩⟩
  · refine ⟨rfl,?_,?_⟩
    · rw [hfinD _ hD, hself]
      rfl
    · rw [hfinD _ hD, hself]
      refine h.store.chain.congr fun c hc => ?_
      have hcu : c ∉ D ++ os := fun hcu => h.store.not_mem_free hcu hc
      have h0 : c ≠ ZNULL := (h.store.has c (List.mem_append_left _ hc)).ne_null
      rw [hfin c fun hcr => hcu (hcr ▸ List.mem_append_right _ h.root)]
      exact hkeep c (fun hcD => hcu (List.mem_append_left _ hcD)) h0
  · exact hperm.nodup_iff.1 h.store.nodup
  · intro c hc
    have := h.store.has c (hperm.mem_iff.2 hc)
    simpa only [Disk.Has, Disk.size_forget, hsize] using this
  · refine h.store.size.trans ?_
    simp only [Disk.size_forget, hsize]
  · simpa only [Disk.size_forget, hsize] using h.store.size_nonneg
  · simpa only [Disk.size_forget, hsize] using h.size
  · intro c hc
    obtain ⟨hcp,hcD⟩ := herase hc
    have hc' := h.block c hcD
    have hload : load c (p :: ps) = load c ps := by rw [load_cons, if_neg (Ne.symm hcp), Nat.zero_add]
    rw [hload] at hc'
    rw [hblk c hcD hcp]
    exact ⟨hc'.type,hc'.taken,hc'.room,hc'.misc,hc'.least⟩
  · refine h.strung.unlink hD h.nodup h.null_notMem (fun c hc hcp => ?_) fun c hc hcp => ?_
    · rw [hblk c hc hcp]
    · rw [hblk c hc hcp]
  · dsimp only [Ctx.freed]
    rw [hfinRoot]
    dsimp only
    split
    · exact Or.inl rfl
    · rename_i hne
      refine h.head.imp_right fun hx => ⟨(List.Nodup.mem_erase_iff h.nodup).2 ⟨hne,hx.1⟩,?_⟩
      rw [hblk _ hx.1 hne]
      dsimp only
      rw [if_neg, hx.2]
      intro heq
      rcases h.strung.next _ hD with hz' | ⟨-,hz'⟩
      · exact h.ne_null hx.1 (heq.trans hz')
      · rw [← heq, hx.2] at hz'
        exact h.ne_null hD hz'.symm
  · intro q hq
    obtain ⟨hne,hqD⟩ := hqs q hq
    refine ⟨(List.Nodup.mem_erase_iff h.nodup).2 ⟨hne,hqD⟩,?_⟩
    dsimp only
    rw [hblk _ hqD hne]
    exact (h.seg q (List.mem_cons_of_mem _ hq)).2
  · intro q hq next hat
    obtain ⟨hne,hqD⟩ := hqs q hq
    unfold Seg.At at hat ⊢
    dsimp only
    rw [hblk _ hqD hne]
    exact ⟨hat.size,hat.next,hat.data⟩
  · intro c hc
    have hcD : c ∉ D := fun hcD => h.not_mem_os hcD hc
    dsimp only
    by_cases hr : c = s.ctx.super.scroot
    · subst hr
      exact ⟨_,hfinRoot⟩
    · have h0 : c ≠ ZNULL := (h.store.has_used (List.mem_append_right D hc)).ne_null
      exact ⟨(s.disk.block c).nxblk,by rw [hfin c hr, hkeep c hcD h0]⟩

theorem deldat (hz : SizedData) (h : Stored s fs D os (p :: ps)) (hat : p.At s next) :
    ∃ s' fs' D', exec (deldat p.blk p.off) s = .done (0, s') ∧ Stored s' fs' D' os ps ∧ Spared s s' ps ∧
      Aside s s' os := by
  by_cases hload : load p.blk ps = 0
  · obtain ⟨s',hex,hrest⟩ := h.deldat_last hz hat hload
    exact ⟨s',_,_,hex,hrest⟩
  · obtain ⟨s',hex,hrest⟩ := h.deldat_some hz hat hload
    exact ⟨s',_,_,hex,hrest⟩

end Stored

-- The segments of a record, each with the address of the one behind it.
def Seg.Chain (s : St) : List Seg → Prop
  | [] => True
  | p :: ps => p.At s (headAddr ps) ∧ Seg.Chain s ps

theorem Seg.Chain.spared {ps : List Seg} (h : Seg.Chain s ps) (hs : Spared s s' ps) : Seg.Chain s' ps := by
  induction ps with
  | nil => trivial
  | cons p ps ih =>
      exact ⟨hs p List.mem_cons_self _ h.1,ih h.2 (hs.subset fun q hq => List.mem_cons_of_mem _ hq)⟩

theorem exec_getseginfo (hz : SizedData) (h : Stored s fs D os ps) (hp : p ∈ ps) (hat : p.At s next) (hf : Fits next) :
    exec (getseginfo p.addr) s = .done (((p.bytes.length : Int), next), s) := by
  have hhas := h.has (h.seg p hp).1
  have hsize := Block.SegAt.rdsz hz hat (h.length_le hp)
  have hnext := Block.SegAt.rdint hat hf
  simp only [getseginfo, exec_bind, h.cnvdraddr_addr hp, exec_brdblk, Disk.read_eq hhas, Prog.Outcome.bind_done, exec_pure]
  rw [hsize, hnext]

-- Induction on the segments: each is taken out before the next is looked at.
theorem exec_bdeldtLoop (hz : SizedData) {rs : List Seg} (h : Stored s fs D os (rs ++ ps)) (hc : Seg.Chain s rs) {n : Nat}
    (hn : rs.length < n) : ∃ s' fs' D', exec (bdeldtLoop n (headAddr rs) 0) s = .done (0, s') ∧
      Stored s' fs' D' os ps ∧ Spared s s' ps ∧ Aside s s' os := by
  induction rs generalizing s fs D n with
  | nil =>
      obtain ⟨n,rfl⟩ := Nat.exists_eq_succ_of_ne_zero (Nat.ne_of_gt hn)
      refine ⟨s,fs,D,?_,h,fun _ _ _ hat => hat,.refl _ _⟩
      simp only [bdeldtLoop, headAddr, if_true, exec_pure]
  | cons p rs ih =>
      obtain ⟨n,rfl⟩ := Nat.exists_eq_succ_of_ne_zero (Nat.ne_of_gt (lt_of_le_of_lt (Nat.zero_le _) hn))
      obtain ⟨hat,hrest⟩ := hc
      have hmem : p ∈ p :: rs ++ ps := List.mem_cons_self
      have hD := (h.seg p hmem).1
      have hfits : Fits (headAddr rs) := h.fits_headAddr hz fun q hq =>
        List.mem_cons_of_mem _ (List.mem_append_left _ hq)
      have haddr : headAddr (p :: rs) = p.addr := rfl
      have hcons : Stored s fs D os (p :: (rs ++ ps)) := h
      obtain ⟨s1,fs1,D1,hex,h1,hs1,hb1⟩ := hcons.deldat hz hat
      obtain ⟨s2,fs2,D2,hex2,h2,hs2,hb2⟩ := ih h1
        (hrest.spared (hs1.subset fun q hq => List.mem_append_left _ hq)) (Nat.lt_of_succ_lt_succ hn)
      refine ⟨s2,fs2,D2,?_,h2,(hs1.subset fun q hq => List.mem_append_right _ hq).trans hs2,hb1.trans hb2⟩
      rw [haddr, bdeldtLoop, if_neg (h.addr_pos hmem).ne']
      simp only [exec_bind, h.cnvdraddr_addr hmem, exec_bgtinf (h.has hD), Prog.Outcome.bind_done, Block.getInf_ZBTYPE,
        (h.block _ hD).type, ne_eq, not_true_eq_false, if_false, exec_getseginfo hz h hmem hat hfits, hex, hex2]

end Btlib
