import Btlib.Data.Put

namespace Btlib

open DoubleLinks

variable [Build] {s s' : St} {fs fs' D os : List Int} {ps rs : List Seg} {p p' q : Seg} {a b c next : Int} {l : List Byte}
  {E : Op → Disk → Prop} {n : Nat} {blk : Block}

namespace Stored

theorem edit (h : Stored s fs D os (p :: ps)) (p' : Seg) (blk : Block) (next : Int)
    (hblk : p'.blk = p.blk) (hoff : p'.off = p.off)
    (hlen : p'.bytes.length ≤ p.bytes.length) (hword : blk = { s.disk.block p.blk with
      data := blk.data, misc := (s.disk.block p.blk).misc + (p.bytes.length - p'.bytes.length) })
    (hdata : ∀ k : Int, k < p.off ∨ (p.off + p.size : Nat) ≤ k → blk.data k = (s.disk.block p.blk).data k)
    (hat : blk.SegAt p.off p'.bytes next) : Stored { s with disk := s.disk.put p.blk blk } fs D os (p' :: ps) ∧
      p'.At { s with disk := s.disk.put p.blk blk } next ∧ Spared s { s with disk := s.disk.put p.blk blk } ps ∧
      Aside s { s with disk := s.disk.put p.blk blk } os := by
  have hmem : p ∈ p :: ps := List.mem_cons_self
  obtain ⟨hD,hle⟩ := h.seg p hmem
  have hd := h.block _ hD
  obtain ⟨hhead,hapart⟩ := List.pairwise_cons.1 h.apart
  have hsz : p.size = ZDOVRH + p.bytes.length := rfl
  have hsz' : p'.size = ZDOVRH + p'.bytes.length := rfl
  have hnk : blk.nkeys = (s.disk.block p.blk).nkeys := by rw [hword]
  have hload : load p.blk (p :: ps) = p.size + load p.blk ps := by rw [load_cons, if_pos rfl]
  have hload' : load p.blk (p' :: ps) = p'.size + load p.blk ps := by rw [load_cons, if_pos hblk]
  have htaken := hd.taken
  have hmisc := hd.misc
  rw [hload] at htaken hmisc
  have hput := h.put hD blk (p' :: ps) (by rw [hword]) (by rw [hword]) ⟨?_,?_,?_,?_,?_⟩
    (fun c _ hc => ?_) (fun q hq => ?_) (List.pairwise_cons.2 ⟨fun q hq hpq => ?_,hapart⟩)
  · refine ⟨hput.1,?_,fun q hq next hat => ?_,hput.2⟩
    · unfold Seg.At
      rw [hblk, hoff]
      simpa only [Disk.block_put, Function.update_self] using hat
    · unfold Seg.At at hat ⊢
      by_cases hqb : q.blk = p.blk
      · rw [hqb] at hat ⊢
        simp only [Disk.block_put, Function.update_self]
        have hap := hhead q hq hqb.symm
        have hqsz : q.size = ZDOVRH + q.bytes.length := rfl
        exact hat.congr fun k h0 h1 => hdata k (by omega)
      · simpa only [Disk.block_put, Function.update_of_ne hqb] using hat
  · rw [hword]
    exact hd.type
  · rw [hnk, hload']
    omega
  · rw [hnk]
    exact hd.room
  · rw [hword, hload']
    dsimp only
    rw [hmisc, hsz, hsz']
    push_cast
    ring
  · rw [hword]
    exact hd.least
  · rw [load_cons, load_cons, hblk]
    simp only [if_neg (Ne.symm hc)]
  · rw [hnk]
    rcases List.mem_cons.1 hq with rfl | hq
    · exact Or.inl ⟨hblk,by omega⟩
    · have hle := (h.seg q (List.mem_cons_of_mem _ hq)).2
      by_cases hqb : q.blk = p.blk
      · rw [hqb] at hle
        exact Or.inl ⟨hqb,hle⟩
      · exact Or.inr ⟨hqb,List.mem_cons_of_mem _ hq⟩
  · have hap := hhead q hq (hblk.symm.trans hpq)
    omega

end Stored

omit [Build] in
theorem Block.data_setBytes (b : Block) {i k : Int} (hk : k < i ∨ i + l.length ≤ k) :
    (b.setBytes i l).data k = b.data k := by
  simp only [Block.setBytes]
  rw [if_neg (by omega)]

omit [Build] in
theorem slice_zero (l : List Byte) (hn : n ≤ l.length) : slice l 0 n = l.take n := by
  have := slice_eq (k := 0) l (by omega : 0 + n ≤ l.length)
  exact_mod_cast this

-- The three parts of a segment may be written one after the other.
theorem Block.segAt_parts (b : Block) (off : Int) (l : List Byte) (next : Int) :
    (((b.setBytes (off + ZDOVRH) l).setBytes off (wrsz l.length)).setBytes (off + ZDRSZ) (wrint next)).SegAt off l next := by
  have ho := ZDOVRH_eq
  refine ⟨?_,?_,?_⟩
  · rw [bytes_setBytes_of_disjoint _ (Or.inl le_rfl)]
    exact bytes_setBytes_self _ off (wrsz l.length)
  · have := bytes_setBytes_self ((b.setBytes (off + ZDOVRH) l).setBytes off (wrsz l.length)) (off + ZDRSZ) (wrint next)
    rwa [length_wrint] at this
  · rw [bytes_setBytes_of_disjoint, bytes_setBytes_of_disjoint]
    · exact bytes_setBytes_self b (off + ZDOVRH) l
    · right
      rw [length_wrsz]
      omega
    · right
      rw [length_wrint]
      omega

section Turns

variable (hz : SizedData) (h : Stored s fs D os (p :: ps)) (hat : p.At s next) (hf : Fits next)
include hz h hat hf

theorem turn_trim (hl : l.length ≤ p.bytes.length) (dblk off type : Int) : ∃ s',
    exec (bupddtLoop (n + 1) p.addr l l.length dblk off type) s =
      exec (bupddtLoop n next [] (if l = [] then -1 else 0) p.blk p.off ZDATA) s' ∧
    Stored s' fs D os (⟨p.blk,p.off,l⟩ :: ps) ∧ Seg.At s' ⟨p.blk,p.off,l⟩ 0 ∧ Spared s s' ps ∧ Aside s s' os := by
  have hmem : p ∈ p :: ps := List.mem_cons_self
  have hD := (h.seg p hmem).1
  have hhas := h.has hD
  have ho := ZDOVRH_eq
  have hsz : p.size = ZDOVRH + p.bytes.length := rfl
  obtain ⟨blk,hblk⟩ : ∃ blk, blk = { (((s.disk.block p.blk).setBytes (p.off + ZDOVRH) l).setBytes p.off
      (wrsz l.length)).setBytes (p.off + ZDRSZ) (wrint 0) with
      misc := (s.disk.block p.blk).misc + (p.bytes.length - l.length) } := ⟨_,rfl⟩
  have hedit := h.edit ⟨p.blk,p.off,l⟩ blk 0 rfl rfl hl (by rw [hblk]; rfl) (fun k hk => ?_) ?_
  · refine ⟨_,?_,hedit⟩
    have hcpsz : (if (l.length : Int) < p.bytes.length then (l.length : Int) else p.bytes.length) = l.length := by
      split
      · rfl
      · omega
    have hslice : slice l 0 l.length = l := by rw [slice_zero l le_rfl, List.take_length]
    have hrem : ((if (l.length : Int) = 0 then -1 else (l.length : Int)) - l.length) = if l = [] then -1 else 0 := by
      by_cases hnil : l = []
      · simp [hnil]
      · have : l.length ≠ 0 := fun h0 => hnil (List.length_eq_zero_iff.1 h0)
        simp [hnil]
    have hcond : p.addr ≠ 0 ∧ (0 : Int) ≤ l.length := ⟨(h.addr_pos hmem).ne',Int.natCast_nonneg _⟩
    have hseg := exec_getseginfo hz h hmem hat hf
    simp only [bupddtLoop, if_pos hcond, exec_bind, h.cnvdraddr_addr hmem, exec_bgtinf hhas, Prog.Outcome.bind_done,
      Block.getInf_ZBTYPE, (h.block _ hD).type, ne_eq, not_true_eq_false, false_and, if_false, hseg, exec_brdblk,
      Disk.read_eq hhas, hcpsz, if_true, Int.toNat_natCast, hslice, List.drop_length, hrem, exec_ite]
    generalize hb0 : (((s.disk.block p.blk).setBytes (p.off + ZDOVRH) l).setBytes p.off (wrsz l.length)).setBytes
      (p.off + ZDRSZ) (wrint 0) = b0 at hblk
    have hmisc : b0.misc = (s.disk.block p.blk).misc := by
      rw [← hb0]
      rfl
    have hset : b0.setInf .ZMISC (b0.misc + (p.bytes.length - l.length)) = blk := by
      rw [hblk, hmisc]
      rfl
    have hhas' : (St.mk s.ctx (s.disk.put p.blk b0)).disk.Has p.blk := hhas
    have hwr : exec (wr p.blk b0 1) s = .done ((), ⟨s.ctx,s.disk.put p.blk b0⟩) := rfl
    rw [hwr]
    simp only [Prog.Outcome.bind_done, exec_bgtinf hhas', exec_bstinf hhas', Disk.block_put, Function.update_self,
      Block.getInf_ZMISC, hset, Disk.put_put]
  · rw [hblk]
    dsimp only
    rw [Block.data_setBytes, Block.data_setBytes, Block.data_setBytes]
    · omega
    · rw [length_wrsz]
      omega
    · rw [length_wrint]
      omega
  · rw [hblk]
    have hat := Block.segAt_parts (s.disk.block p.blk) p.off l 0
    exact ⟨hat.size,hat.next,hat.data⟩

theorem turn_fill (hl : p.bytes.length < l.length) (dblk off type : Int) : ∃ s',
    exec (bupddtLoop (n + 1) p.addr l l.length dblk off type) s =
      exec (bupddtLoop n next (l.drop p.bytes.length) ((l.drop p.bytes.length).length : Int) p.blk p.off ZDATA) s' ∧
    Stored s' fs D os (⟨p.blk,p.off,l.take p.bytes.length⟩ :: ps) ∧
    Seg.At s' ⟨p.blk,p.off,l.take p.bytes.length⟩ next ∧ Spared s s' ps ∧ Aside s s' os := by
  have hmem : p ∈ p :: ps := List.mem_cons_self
  have hD := (h.seg p hmem).1
  have hhas := h.has hD
  have ho := ZDOVRH_eq
  have hsz : p.size = ZDOVRH + p.bytes.length := rfl
  have htake : (l.take p.bytes.length).length = p.bytes.length := by
    rw [List.length_take]
    omega
  obtain ⟨blk,hblk⟩ : ∃ blk, blk = (s.disk.block p.blk).setBytes (p.off + ZDOVRH) (l.take p.bytes.length) := ⟨_,rfl⟩
  have hedit := h.edit ⟨p.blk,p.off,l.take p.bytes.length⟩ blk next rfl rfl htake.le
    (by rw [hblk]; dsimp only; rw [htake, sub_self, add_zero]; rfl) (fun k hk => ?_) ?_
  · refine ⟨_,?_,hedit⟩
    have hcpsz : (if (l.length : Int) < p.bytes.length then (l.length : Int) else p.bytes.length) = p.bytes.length := by
      rw [if_neg (by omega)]
    have hslice : slice l 0 p.bytes.length = l.take p.bytes.length := slice_zero l hl.le
    have hne : ¬ (p.bytes.length : Int) = l.length := by omega
    have hcond : p.addr ≠ 0 ∧ (0 : Int) ≤ l.length := ⟨(h.addr_pos hmem).ne',Int.natCast_nonneg _⟩
    have hrem : (l.length : Int) - p.bytes.length = ((l.drop p.bytes.length).length : Int) := by
      rw [List.length_drop]
      omega
    have hseg := exec_getseginfo hz h hmem hat hf
    have hwr : exec (wr p.blk blk 1) s = .done ((), ⟨s.ctx,s.disk.put p.blk blk⟩) := rfl
    simp only [bupddtLoop, if_pos hcond, exec_bind, h.cnvdraddr_addr hmem, exec_bgtinf hhas, Prog.Outcome.bind_done,
      Block.getInf_ZBTYPE, (h.block _ hD).type, ne_eq, not_true_eq_false, false_and, if_false, hseg, exec_brdblk,
      Disk.read_eq hhas, hcpsz, if_neg hne, Int.toNat_natCast, hslice, exec_ite, ← hblk, hwr, hrem]
  · rw [hblk, Block.data_setBytes]
    rw [htake]
    omega
  · rw [hblk]
    refine ⟨?_,?_,?_⟩
    · rw [Block.bytes_setBytes_of_disjoint, htake]
      · exact hat.size
      · exact Or.inl (by omega)
    · rw [Block.bytes_setBytes_of_disjoint]
      · exact hat.next
      · exact Or.inl (by omega)
    · exact Block.bytes_setBytes_self _ _ _

end Turns

-- What the rewriting of a record comes to, with the data `l` for the segments `rs`: `kept` hold what fits.
structure Rewritten (s' : St) (fs D os : List Int) (rs ps : List Seg) (l : List Byte)
    (o : Int × List Byte × Int × Int × Int × Int) (kept : List Seg) : Prop where
  head : headAddr kept = headAddr rs
  ne_nil : kept ≠ []
  length : kept.length ≤ rs.length
  chain : Seg.Chain s' kept
  content : content kept ++ o.2.1 = l
  solid : l ≠ [] → Solid rs → Solid kept
  tight : Tight rs → Tight kept
  stored : (∃ lost rest, o.1 = headAddr rest ∧ o.2.1 = [] ∧ o.2.2.1 ≤ 0 ∧
      Stored s' fs D os (rest ++ (kept ++ (lost ++ ps))) ∧ Seg.Chain s' rest ∧ rest.length < rs.length) ∨
    o.1 = 0 ∧ o.2.1 ≠ [] ∧ o.2.2.1 = o.2.1.length ∧ Stored s' fs D os (kept ++ ps) ∧
      ∃ us p, kept = us ++ [p] ∧ o.2.2.2 = (p.blk,(p.off : Int),ZDATA)

theorem bupddtLoop_stop {a r d o t : Int} (hstop : a = 0 ∨ r < 0) :
    exec (bupddtLoop (n + 1) a l r d o t) s = .done (some (a,l,r,d,o,t), s) := by
  have hno : ¬ (a ≠ 0 ∧ 0 ≤ r) := by omega
  simp only [bupddtLoop, if_neg hno, exec_pure]

omit [Build] in
theorem solid_singleton (h : p.bytes ≠ []) : Solid [p] := fun q hq => by
  obtain rfl := List.mem_singleton.1 hq
  exact h

theorem exec_bupddtLoop_trim (hz : SizedData) (h : Stored s fs D os (p :: rs ++ ps)) (hc : Seg.Chain s (p :: rs))
    (hl : l.length ≤ p.bytes.length) (d o t : Int) : ∃ s' r,
      exec (bupddtLoop (n + 3) p.addr l l.length d o t) s = .done (some r, s') ∧ Spared s s' ps ∧ Aside s s' os ∧
      ∃ kept, Rewritten s' fs D os (p :: rs) ps l r kept := by
  have hfits : Fits (headAddr rs) := h.fits_headAddr hz fun q hq => List.mem_cons_of_mem _ (List.mem_append_left _ hq)
  have hcons : Stored s fs D os (p :: (rs ++ ps)) := h
  obtain ⟨s1,hex,h1,hat1,hsp1,hbe1⟩ := turn_trim (n := n + 2) hz hcons hc.1 hfits hl d o t
  have hrest := hc.2.spared (hsp1.subset fun q hq => List.mem_append_left _ hq)
  have hps : Spared s s1 ps := hsp1.subset fun q hq => List.mem_append_right _ hq
  by_cases hnil : l = []
  · subst hnil
    refine ⟨s1,_,hex.trans (bupddtLoop_stop (Or.inr (by decide))),hps,hbe1,[⟨p.blk,p.off,[]⟩],rfl,by simp,by simp,
      ⟨hat1,trivial⟩,rfl,fun h0 => absurd rfl h0,fun _ => nofun,Or.inl ⟨[],rs,rfl,rfl,by simp,?_,hrest,by simp⟩⟩
    exact h1.perm List.perm_middle.symm
  · rw [if_neg hnil] at hex
    cases rs with
    | nil =>
        refine ⟨s1,_,hex.trans (bupddtLoop_stop (Or.inl rfl)),hps,hbe1,[⟨p.blk,p.off,l⟩],rfl,by simp,by simp,
          ⟨hat1,trivial⟩,by simp,fun _ _ => solid_singleton hnil,fun _ => nofun,
          Or.inl ⟨[],[],rfl,rfl,le_rfl,h1,trivial,by simp⟩⟩
    | cons q rs =>
        have hfits2 : Fits (headAddr rs) := h.fits_headAddr hz fun q' hq =>
          List.mem_cons_of_mem _ (List.mem_append_left _ (List.mem_cons_of_mem _ hq))
        have h1' : Stored s1 fs D os (q :: (⟨p.blk,p.off,l⟩ :: (rs ++ ps))) := h1.perm (List.Perm.swap _ _ _)
        obtain ⟨s2,hex2,h2,hat2,hsp2,hbe2⟩ := turn_trim (n := n + 1) (l := []) hz h1' hrest.1 hfits2 (Nat.zero_le _)
          p.blk p.off ZDATA
        rw [if_pos rfl] at hex2
        have hstop := bupddtLoop_stop (s := s2) (l := []) (n := n) (a := headAddr rs) (r := -1) (d := q.blk) (o := q.off)
          (t := ZDATA) (Or.inr (by decide))
        refine ⟨s2,_,hex.trans (hex2.trans hstop),?_,hbe1.trans hbe2,[⟨p.blk,p.off,l⟩],rfl,by simp,by simp,
          ⟨hsp2 _ List.mem_cons_self _ hat1,trivial⟩,by simp,fun _ _ => solid_singleton hnil,fun _ => nofun,
          Or.inl ⟨[⟨q.blk,q.off,[]⟩],rs,rfl,rfl,by simp,?_,?_,?_⟩⟩
        · exact hps.trans (hsp2.subset fun q' hq => List.mem_cons_of_mem _ (List.mem_append_right _ hq))
        · refine h2.perm ?_
          have hperm : (⟨q.blk,q.off,[]⟩ :: ⟨p.blk,p.off,l⟩ :: (rs ++ ps)).Perm
              (rs ++ (⟨q.blk,q.off,[]⟩ :: ⟨p.blk,p.off,l⟩ :: ps)) := by
            exact (List.perm_append_comm_assoc [⟨q.blk,q.off,[]⟩,⟨p.blk,p.off,l⟩] rs ps)
          exact hperm.trans ((List.Perm.swap _ _ _).append_left rs)
        · exact hrest.2.spared (hsp2.subset fun q' hq => List.mem_cons_of_mem _ (List.mem_append_left _ hq))
        · rw [List.length_cons, List.length_cons]
          omega

-- Induction on the segments: each is filled before the next is looked at.
theorem exec_bupddtLoop (hz : SizedData) (h : Stored s fs D os (rs ++ ps)) (hc : Seg.Chain s rs) (hne : rs ≠ [])
    (hn : rs.length + 2 ≤ n) (d o t : Int) : ∃ s' r,
      exec (bupddtLoop n (headAddr rs) l l.length d o t) s = .done (some r, s') ∧ Spared s s' ps ∧ Aside s s' os ∧
      ∃ kept, Rewritten s' fs D os rs ps l r kept := by
  induction rs generalizing s l n ps d o t with
  | nil => exact absurd rfl hne
  | cons p rs ih =>
      obtain ⟨n,rfl⟩ : ∃ k, n = k + 3 := ⟨n - 3,by rw [List.length_cons] at hn; omega⟩
      by_cases hl : l.length ≤ p.bytes.length
      · exact exec_bupddtLoop_trim hz h hc hl d o t
      · have hfits : Fits (headAddr rs) := h.fits_headAddr hz fun q hq =>
          List.mem_cons_of_mem _ (List.mem_append_left _ hq)
        have hcons : Stored s fs D os (p :: (rs ++ ps)) := h
        obtain ⟨s1,hex,h1,hat1,hsp1,hbe1⟩ := turn_fill (n := n + 2) hz hcons hc.1 hfits (not_le.1 hl) d o t
        have hrest := hc.2.spared (hsp1.subset fun q hq => List.mem_append_left _ hq)
        have hps : Spared s s1 ps := hsp1.subset fun q hq => List.mem_append_right _ hq
        have hdrop : l.drop p.bytes.length ≠ [] := fun h0 => by
          have := congrArg List.length h0
          rw [List.length_drop, List.length_nil] at this
          omega
        have htake : p.bytes ≠ [] → l.take p.bytes.length ≠ [] := fun h0 h1 => by
          have := congrArg List.length h1
          rw [List.length_take, List.length_nil] at this
          have := List.length_pos_iff.2 h0
          omega
        have haddr : headAddr (p :: rs) = p.addr := rfl
        rw [haddr, hex]
        by_cases hnil : rs = []
        · subst hnil
          refine ⟨s1,_,bupddtLoop_stop (Or.inl rfl),hps,hbe1,[⟨p.blk,p.off,l.take p.bytes.length⟩],rfl,by simp,by simp,
            ⟨hat1,trivial⟩,?_,fun _ hsol => solid_singleton (htake (hsol p List.mem_cons_self)),fun _ => nofun,
            Or.inr ⟨rfl,hdrop,rfl,h1,[],_,rfl,rfl⟩⟩
          rw [content_cons, content_nil, List.append_nil]
          exact List.take_append_drop _ _
        · have h1' : Stored s1 fs D os (rs ++ (⟨p.blk,p.off,l.take p.bytes.length⟩ :: ps)) :=
            h1.perm List.perm_middle.symm
          obtain ⟨s2,r,hex2,hsp2,hbe2,kept,hk⟩ := ih (l := l.drop p.bytes.length) (n := n + 2) h1' hrest hnil
            (by rw [List.length_cons] at hn; omega) p.blk p.off ZDATA
          refine ⟨s2,r,hex2,hps.trans (hsp2.subset fun q hq => List.mem_cons_of_mem _ hq),hbe1.trans hbe2,
            ⟨p.blk,p.off,l.take p.bytes.length⟩ :: kept,rfl,by simp,by simpa using hk.length,⟨?_,hk.chain⟩,?_,
            fun _ hsol => ?_,hk.solid hdrop,?_⟩
          · rw [hk.head]
            exact hsp2 _ List.mem_cons_self _ hat1
          · rw [content_cons, List.append_assoc, hk.content]
            exact List.take_append_drop _ _
          · intro q hq
            rcases List.mem_cons.1 hq with rfl | hq
            · exact htake (hsol p List.mem_cons_self)
            · exact hk.solid hdrop (fun q hq => hsol q (List.mem_cons_of_mem _ hq)) q hq
          · rcases hk.stored with ⟨lost,rest,h0,h2,h3,h4,h5,h6⟩ | ⟨h0,h2,h3,h4,us,q,h5,h6⟩
            · refine Or.inl ⟨lost,rest,h0,h2,h3,h4.perm (List.Perm.append_left _ ?_),h5,?_⟩
              · exact (List.perm_middle.append_left kept).trans List.perm_middle
              · rw [List.length_cons]
                omega
            · refine Or.inr ⟨h0,h2,h3,h4.perm List.perm_middle,⟨p.blk,p.off,l.take p.bytes.length⟩ :: us,q,?_,h6⟩
              rw [h5]
              rfl

theorem Seg.chain_append {us : List Seg} : Seg.Chain s (us ++ rs) ↔
    (∀ vs p ws, us = vs ++ p :: ws → p.At s (headAddr (ws ++ rs))) ∧ Seg.Chain s rs := by
  induction us with
  | nil => simp
  | cons u us ih =>
      rw [List.cons_append, Seg.Chain, ih]
      constructor
      · rintro ⟨hu,hus,hrs⟩
        refine ⟨fun vs p ws heq => ?_,hrs⟩
        cases vs with
        | nil =>
            obtain ⟨rfl,rfl⟩ := List.cons.inj heq
            exact hu
        | cons v vs => exact hus vs p ws (List.cons.inj heq).2
      · rintro ⟨hus,hrs⟩
        exact ⟨hus [] u us rfl,fun vs p ws heq => hus (u :: vs) p ws (by rw [heq]; rfl),hrs⟩

theorem exec_relink_last (h : Stored s fs D os (p :: ps)) (hat : p.At s next) (a : Int) : ∃ s',
    exec (wr p.blk ((s.disk.block p.blk).setBytes (p.off + ZDRSZ) (wrint a)) 1) s = .done ((), s') ∧
    Stored s' fs D os (p :: ps) ∧ p.At s' a ∧ Spared s s' ps ∧ Aside s s' os ∧ s'.ctx = s.ctx := by
  have ho := ZDOVRH_eq
  have hsz : p.size = ZDOVRH + p.bytes.length := rfl
  obtain ⟨blk,hblk⟩ : ∃ blk, blk = (s.disk.block p.blk).setBytes (p.off + ZDRSZ) (wrint a) := ⟨_,rfl⟩
  have hedit := h.edit p blk a rfl rfl le_rfl
    (by rw [hblk]; dsimp only; rw [sub_self, add_zero]; rfl) (fun k hk => ?_) ?_
  · rw [← hblk]
    exact ⟨_,rfl,hedit.1,hedit.2.1,hedit.2.2.1,hedit.2.2.2,rfl⟩
  · rw [hblk, Block.data_setBytes]
    rw [length_wrint]
    omega
  · rw [hblk]
    refine ⟨?_,?_,?_⟩
    · rw [Block.bytes_setBytes_of_disjoint]
      · exact hat.size
      · exact Or.inl le_rfl
    · have := Block.bytes_setBytes_self (s.disk.block p.blk) (p.off + ZDRSZ) (wrint a)
      rwa [length_wrint] at this
    · rw [Block.bytes_setBytes_of_disjoint]
      · exact hat.data
      · rw [length_wrint]
        omega

theorem ends_bupddt (hz : SizedData) (hE : ∀ o d, NoBlock o d → E o d) (h : Stored s fs D os (rs ++ ps))
    (hc : Seg.Chain s rs) (hne : rs ≠ []) (ht : Tight rs) (hrs : rs.length + 2 ≤ FUEL) (hf : 2 * l.length + 2 ≤ FUEL) :
    (exec (bupddt (headAddr rs) l) s).Ends E fun r => ∃ kept lost fs' D', r.1 = r.2.ctx.err.qerror ∧
      headAddr kept = headAddr rs ∧ kept ≠ [] ∧ Stored r.2 fs' D' os (kept ++ (lost ++ ps)) ∧ Seg.Chain r.2 kept ∧
      content kept = l ∧ Tight kept ∧ Spared s r.2 ps ∧ Aside s r.2 os := by
  obtain ⟨s1,o,hex,hsp1,hbe1,kept,hk⟩ := exec_bupddtLoop (l := l) hz h hc hne hrs 0 0 0
  obtain ⟨a',l',r',d',o',t'⟩ := o
  obtain ⟨hhead,hkne,-,hchain,hcont,-,htight,hstored⟩ := hk
  dsimp only at hcont hstored
  rw [bupddt]
  simp only [exec_bind, hex, Prog.Outcome.bind_done, exec_ite]
  rcases hstored with ⟨lost,rest,rfl,rfl,hr,h1,hrest,hlen⟩ | ⟨rfl,hl',rfl,h1,us,p,rfl,ho⟩
  · rw [List.append_nil] at hcont
    by_cases hnil : headAddr rest = 0
    · have hr0 : ¬ 0 < r' := not_lt.2 hr
      have hrest0 : rest = [] := by
        cases rest with
        | nil => rfl
        | cons q rest => exact absurd hnil (h1.addr_pos List.mem_cons_self).ne'
      rw [if_neg (not_not.2 hnil), if_neg hr0, exec_btgerr]
      rw [hrest0, List.nil_append] at h1
      exact ⟨kept,lost,fs,D,rfl,hhead,hkne,h1,hchain,hcont,htight ht,hsp1,hbe1⟩
    · obtain ⟨s2,fs2,D2,hex2,h2,hsp2,hbe2⟩ := exec_bdeldtLoop hz h1 hrest (n := FUEL) (by omega)
      have hdel : exec (bdeldt (headAddr rest)) s1 = .done (0, s2) := hex2
      rw [if_pos hnil, hdel]
      simp only [Prog.Outcome.bind_done, exec_btgerr]
      exact ⟨kept,lost,fs2,D2,rfl,hhead,hkne,h2,hchain.spared (hsp2.subset fun q hq => List.mem_append_left _ hq),hcont,
        htight ht,hsp1.trans (hsp2.subset fun q hq => List.mem_append_right _ (List.mem_append_right _ hq)),
        hbe1.trans hbe2⟩
  · have h0 : ¬ (0 : Int) ≠ 0 := not_not.2 rfl
    have hpos : (0 : Int) < l'.length := by exact_mod_cast List.length_pos_iff.2 hl'
    have hfl : 2 * l'.length + 2 ≤ FUEL := by
      rw [← hcont, List.length_append] at hf
      omega
    obtain ⟨rfl,rfl,rfl⟩ : d' = p.blk ∧ o' = (p.off : Int) ∧ t' = ZDATA := by
      simpa only [Prod.mk.injEq] using ho
    rw [if_neg h0, if_pos hpos]
    refine (Stored.ends_binsdt hz hE h1 l' hfl).bind fun r hr => ?_
    obtain ⟨q,qs,fs2,D2,hr1,h2,hc2,hcont2,hsol2,-,hsp2,hbe2⟩ := hr
    obtain ⟨addr,s2⟩ := r
    dsimp only at hr1 h2 hc2 hsp2 hbe2 ⊢
    have hmem : p ∈ q :: qs ++ (us ++ [p] ++ ps) := by simp
    have hhas := h2.has (h2.seg p hmem).1
    have haddr : ¬ addr = ZNULL := by
      rw [hr1]
      have := h2.addr_pos (p := q) (by simp)
      change ¬ _ = -1
      omega
    have hperm : (q :: qs ++ (us ++ [p] ++ ps)).Perm (p :: (us ++ (q :: qs) ++ ps)) := by
      have h1 : (q :: qs ++ (us ++ [p] ++ ps)).Perm (us ++ [p] ++ (q :: qs ++ ps)) := List.perm_append_comm_assoc _ _ _
      refine h1.trans ?_
      simp only [List.append_assoc, List.singleton_append]
      exact List.perm_middle
    have hchain2 := hchain.spared (hsp2.subset fun q hq => List.mem_append_left _ hq)
    obtain ⟨hus,hat⟩ := Seg.chain_append.1 hchain2
    obtain ⟨s3,hex3,h3,hat3,hsp3,hbe3,-⟩ := exec_relink_last (h2.perm hperm) hat.1 q.addr
    simp only [exec_bind, exec_brdblk, Disk.read_eq hhas, Prog.Outcome.bind_done, if_neg haddr]
    rw [hr1, hex3]
    simp only [Prog.Outcome.bind_done, exec_btgerr, Prog.Outcome.ends_done]
    have hsolid := hsol2 hl'
    have hfront : ∀ ws X, headAddr (ws ++ p :: X) = headAddr (ws ++ [p]) := fun ws X => by cases ws <;> rfl
    refine ⟨us ++ p :: (q :: qs),[],fs2,D2,trivial,?_,by simp,h3.perm ?_,?_,?_,?_,?_,(hbe1.trans hbe2).trans hbe3⟩
    · rw [hfront, hhead]
    · rw [List.nil_append, List.append_assoc]
      simp only [List.append_assoc, List.cons_append]
      exact List.perm_middle.symm
    · refine Seg.chain_append.2 ⟨fun vs p' ws heq => ?_,hat3,?_⟩
      · rw [hfront]
        refine hsp3 p' ?_ _ (hus vs p' ws heq)
        rw [heq]
        simp
      · exact hc2.spared (hsp3.subset fun q' hq' => by
          rw [List.append_assoc]
          exact List.mem_append_right _ (List.mem_append_left _ hq'))
    · have happ : us ++ p :: (q :: qs) = us ++ [p] ++ (q :: qs) := by simp
      rw [happ, content_append, hcont2, hcont]
    · have htail : (us ++ p :: (q :: qs)).tail = (us ++ [p]).tail ++ (q :: qs) := by cases us <;> simp
      intro q' hq'
      rw [htail] at hq'
      rcases List.mem_append.1 hq' with hq' | hq'
      · exact htight ht q' hq'
      · exact hsolid q' hq'
    · refine (hsp1.trans (hsp2.subset fun q' hq' => List.mem_append_right _ hq')).trans (hsp3.subset fun q' hq' => ?_)
      exact List.mem_append_right _ hq'

end Btlib
