import Btlib.Index.Index

namespace Btlib

open Multiway

variable {n m : Nat} {s : St} {fs os : List Int} {E : Op → Disk → Prop}

theorem sp_add [Build] (h : 3 ≤ ZMXKEY) : sp + (sp2 + 1) = ZMXKEY ∧ 1 ≤ sp ∧ 1 ≤ sp2 ∧ sp < ZMXKEY := by
  simp only [sp, sp2]
  split <;> omega

theorem took {fs fs' : List Int} {b size c : Int} (h : fs = b :: fs' ∨ fs = [] ∧ fs' = [] ∧ b = size) (hc : c ∈ fs) :
    c ∈ fs' ∨ c = b := by
  rcases h with rfl | ⟨rfl,-⟩
  · exact (List.mem_cons.1 hc).symm
  · exact absurd hc List.not_mem_nil

section Copy

variable {D D' : Int → Block}

theorem holds_copy {k : Nat} {c new : Int} {t : Block} {es : List KeyEnt} {ks : List (KeyTree n)}
    (hkeys : Reads (D c).keyblk k es) (hlinks : Reads (D c).lnkblk k (ks.map BTree.link))
    (hlen : ks.length = es.length + 1) (hes : es ≠ [])
    (hnew : (D' new).nkeys = es.length ∧
      (D' new).keyblk = (t.cpybk (D c) 0 k es.length).keyblk ∧
      (D' new).lnkblk = (t.cpybk (D c) 0 k es.length).lnkblk)
    (hks : ∀ k ∈ ks, Holds D' k) : Holds D' (BTree.node new es ks) := by
  have hcopy := Block.cpybk_front (t := t) hkeys hlinks (by simp [hlen])
  rw [holds_node, nodeLinks_of_ne hes]
  refine ⟨⟨hnew.1,?_,?_⟩,hks⟩
  · rw [hnew.2.1]
    exact hcopy.1
  · rw [hnew.2.2]
    exact hcopy.2

end Copy

section NonRoot

variable {f : KeyFrame (n + 1)} {p : KeyPath (n + 2) m} {blk new : Int} {l r : List KeyEnt} {e : KeyEnt}
  {lk rk : List (KeyTree n)} {D D' : Int → Block}

-- What the blocks hold once `blk` is split into itself and `new` below the frame `f`.
theorem holds_split {b : Block}
    (h : Holds D ((Path.step f p).plug (BTree.node blk (l ++ e :: r) (lk ++ rk))))
    (hlk : lk.length = l.length + 1) (hrk : rk.length = r.length + 1)
    (hle : ∀ x ∈ f.le, x.key < e.key) (hre : ∀ x ∈ f.re, e.key < x.key) (hne : f.size ≠ 0)
    (hblk : 0 ≤ blk) (hnew : 0 ≤ new) (hl : l ≠ []) (hr : r ≠ [])
    (hnd : (new :: ((BTree.node blk (l ++ e :: r) (lk ++ rk)).ids ++
      (Path.step f p).ids)).Nodup)
    (hDblk : D' blk = { D blk with nkeys := l.length })
    (hDnew : (D' new).nkeys = r.length ∧
      (D' new).keyblk = (b.cpybk (D blk) 0 (l.length + 1) r.length).keyblk ∧
      (D' new).lnkblk = (b.cpybk (D blk) 0 (l.length + 1) r.length).lnkblk)
    (hDf : D' f.id = (D f.id).putky e blk new)
    (hD : ∀ c, c ≠ blk → c ≠ new → c ≠ f.id → D' c = D c) :
    Holds D' (p.plug (f.fillTwo (BTree.node blk l lk) e (BTree.node new r rk))) := by
  rw [holds_plug_iff, pathHolds_step, holds_node, nodeLinks_of_ne (by simp), List.map_append] at h
  obtain ⟨⟨⟨hf,hsib⟩,hp⟩,hc,hkids⟩ := h
  rw [if_neg (by simp), link_node] at hf
  have hsame : ∀ X : List Int, (∀ c ∈ X, c ≠ blk ∧ c ≠ new ∧ c ≠ f.id) → ∀ c ∈ X, D' c = D c :=
    fun X hX c hc => hD c (hX c hc).1 (hX c hc).2.1 (hX c hc).2.2
  simp only [Path.ids_step, Frame.ids, BTree.ids_node, List.cons_append, List.nodup_cons,
    List.mem_cons, List.mem_append, not_or, List.nodup_append] at hnd
  have hkid : ∀ k ∈ lk ++ rk, Holds D' k := fun k hk => (hkids k hk).congr <| hsame _ fun c hc => by
    have : c ∈ ((lk ++ rk).map BTree.ids).flatten :=
      List.mem_flatten.2 ⟨_,List.mem_map_of_mem hk,hc⟩
    grind
  rw [holds_plug_iff, link_fillTwo, Frame.fillTwo, holds_node, nodeLinks_succ]
  refine ⟨hp.congr <| hsame _ fun c hc => by grind,?_,?_⟩
  · rw [hDf]
    simp only [List.map_append, List.map_cons, link_node]
    refine Block.putky_promote hf (by simp [f.hl]) (by simp [f.hr]) ?_ hblk hnew ?_ ?_
    · intro h0
      exact hne (by simpa [Frame.size] using congrArg List.length h0)
    · exact fun x hx => strcmp_pos_iff.2 (hle x hx)
    · exact fun x hx => strcmp_nonpos_iff.2 (hre x hx).le
  · have hsibs : ∀ k ∈ f.lk ++ f.rk, Holds D' k := fun k hk =>
      (hsib k hk).congr <| hsame _ fun c hc => by
        have : c ∈ ((f.lk ++ f.rk).map BTree.ids).flatten :=
          List.mem_flatten.2 ⟨_,List.mem_map_of_mem hk,hc⟩
        grind
    intro k hk
    simp only [List.mem_append, List.mem_cons] at hk
    rcases hk with hk | rfl | rfl | hk
    · exact hsibs k (List.mem_append_left _ hk)
    · rw [holds_node, nodeLinks_of_ne hl, hDblk]
      exact ⟨hc.truncate rfl,fun k hk => hkid k (List.mem_append_left _ hk)⟩
    · have hkeys := (Reads.append_iff.1 hc.keys).2.2
      have hlinks := (Reads.append_iff.1 hc.links).2
      rw [zero_add] at hkeys hlinks
      rw [List.length_map, hlk] at hlinks
      exact holds_copy hkeys (by exact_mod_cast hlinks) hrk hr hDnew
        fun k hk => hkid k (List.mem_append_right _ hk)
    · exact hsibs k (List.mem_append_right _ hk)

theorem Index.split [Build] {s1 s' : St} {fs' : List Int} {b : Block}
    (h : Index s ((Path.step f p).plug (BTree.node blk (l ++ e :: r) (lk ++ rk))) fs os)
    (hgave : Gave s (((Path.step f p).plug (BTree.node blk (l ++ e :: r) (lk ++ rk))).ids ++ os) new
      fs' s1)
    (hlk : lk.length = l.length + 1) (hrk : rk.length = r.length + 1)
    (hle : ∀ x ∈ f.le, x.key < e.key) (hre : ∀ x ∈ f.re, e.key < x.key) (hne : f.size ≠ 0)
    (hl : l ≠ []) (hr : r ≠ [])
    (hctx : s'.ctx = { s.ctx with super := s1.ctx.super, keyent := e }) (hsize : s'.disk.size = s1.disk.size)
    (hDblk : s'.disk.block blk = { s.disk.block blk with nkeys := l.length })
    (hDnew : (s'.disk.block new).nkeys = r.length ∧
      (s'.disk.block new).keyblk = (b.cpybk (s.disk.block blk) 0 (l.length + 1) r.length).keyblk ∧
      (s'.disk.block new).lnkblk = (b.cpybk (s.disk.block blk) 0 (l.length + 1) r.length).lnkblk ∧
      (s'.disk.block new).btype = ZINUSE)
    (hDf : s'.disk.block f.id = (s.disk.block f.id).putky e blk new)
    (hD : ∀ c, c ≠ blk → c ≠ new → c ≠ f.id → s'.disk.block c = s.disk.block c) :
    Index s' (p.plug (f.fillTwo (BTree.node blk l lk) e (BTree.node new r rk))) fs' os ∧
      Keeps s s' os := by
  have hids := (Path.step f p).ids_plug (BTree.node blk (l ++ e :: r) (lk ++ rk))
  have hperm : (p.plug (f.fillTwo (BTree.node blk l lk) e (BTree.node new r rk))).ids.Perm
      (new :: ((Path.step f p).plug (BTree.node blk (l ++ e :: r) (lk ++ rk))).ids) := p.ids_plug_cut f
  have hmem : blk ∈ ((Path.step f p).plug (BTree.node blk (l ++ e :: r) (lk ++ rk))).ids :=
    hids.mem_iff.2 (List.mem_append_left _ List.mem_cons_self)
  have hmemf : f.id ∈ ((Path.step f p).plug (BTree.node blk (l ++ e :: r) (lk ++ rk))).ids :=
    hids.mem_iff.2 (List.mem_append_right _ List.mem_cons_self)
  have hnew := (List.nodup_cons.1 hgave.store.nodup_used).1
  have hnd := hgave.store.nodup_used
  rw [← List.cons_append, List.nodup_append] at hnd
  have hinfo : ∀ c, c ≠ new → (s.disk.block c).SameInfo (s'.disk.block c) := by
    intro c hc
    by_cases hcf : c = f.id
    · rw [hcf, hDf]
      exact Block.putky_sameInfo _ _ _ _
    · by_cases hcb : c = blk
      · rw [hcb, hDblk]
        exact ⟨rfl,rfl,rfl,rfl,rfl,rfl,rfl⟩
      · rw [hD c hcb hc hcf]
        exact Block.SameInfo.refl _
  have hother : ∀ c, c ∉ ((Path.step f p).plug (BTree.node blk (l ++ e :: r) (lk ++ rk))).ids →
      c ≠ new → s'.disk.block c = s.disk.block c := fun c hc hcn =>
    hD c (ne_of_mem_of_not_mem hmem hc).symm hcn (ne_of_mem_of_not_mem hmemf hc).symm
  have hstore : Store s1 fs' ((p.plug (f.fillTwo (BTree.node blk l lk) e (BTree.node new r rk))).ids
      ++ os) := hgave.store.perm (hperm.symm.append_right os)
  have hroot : s'.ctx.super.scroot = s.ctx.super.scroot := by
    rw [hctx]
    exact hgave.root
  refine ⟨h.change ?_ hroot ?_ (hstore.transfer hsize ?_ ?_ ?_) ?_,
    ⟨by rw [hctx],by rw [hctx],by rw [hctx],hroot,?_,?_,?_⟩⟩
  · simp only [link_plug, link_fillTwo, Path.top]
  · refine holds_split h.holds hlk hrk hle hre hne (h.has hmem).1 ?_ hl hr ?_ hDblk
      ⟨hDnew.1,hDnew.2.1,hDnew.2.2.1⟩ hDf hD
    · exact (hgave.store.has_used List.mem_cons_self).1
    · exact (hids.cons new).nodup_iff.1 hnd.1
  · intro c hc
    rw [hgave.block]
    have hcu := fun hu => hgave.store.not_mem_free hu hc
    exact hother c (fun hc' => hcu (List.mem_cons_of_mem _ (List.mem_append_left _ hc')))
      (fun hc' => hcu (hc' ▸ List.mem_cons_self))
  · rw [hctx]
  · rw [hctx]
  · intro c hc
    rcases List.mem_cons.1 (hperm.mem_iff.1 hc) with rfl | hc'
    · refine Or.inr ⟨?_,hDnew.2.2.2⟩
      rintro rfl
      exact hnew (List.mem_append_left _ (Index.height_pos _ _))
    · refine Or.inl ⟨hc',(hinfo c ?_).btype⟩
      rintro rfl
      exact hnew (List.mem_append_left _ hc')
  · rw [hctx]
    exact hgave.mode
  · intro c hc
    exact hother c (fun hc' => h.not_mem_os hc' hc) (fun hc' => hnew (List.mem_append_right _ (hc' ▸ hc)))
  · refine hinfo _ ?_
    rw [← h.link]
    intro heq
    exact hnew (List.mem_append_left _ (heq ▸ Index.height_pos (.step f p) _))

theorem ends_bsptbk [Build] (hcap : 3 ≤ ZMXKEY)
    (h : Index s ((Path.step f p).plug (BTree.node blk (l ++ e :: r) (lk ++ rk))) fs os)
    (hl : l.length = sp) (hr : r.length = sp2) (hlk : lk.length = l.length + 1)
    (hrk : rk.length = r.length + 1) (hf : s.ctx.lf.lfblk = f.id) (hroom : f.size < ZMXKEY)
    (hpos : f.size ≠ 0) (hle : ∀ x ∈ f.le, x.key < e.key) (hre : ∀ x ∈ f.re, e.key < x.key)
    (hE : ∀ o d, NoBlock o d → E o d) :
    (exec (bsptbk blk) s).Ends E fun o => 0 ≤ o.1 ∧ ∃ fs',
      Index o.2 (p.plug (f.fillTwo (BTree.node blk l lk) e (BTree.node o.1 r rk)))
        fs' os ∧
      Keeps s o.2 os ∧ o.2.ctx.lf = s.ctx.lf ∧ o.2.ctx.stk = s.ctx.stk ∧ o.2.ctx.err = s.ctx.err ∧
      (∀ c ∈ fs, c ∈ fs' ∨ c = o.1) ∧ s.disk.Reaches o.2.disk := by
  have hsp := sp_add hcap
  have hids := (Path.step f p).ids_plug (BTree.node blk (l ++ e :: r) (lk ++ rk))
  have hmem : blk ∈ ((Path.step f p).plug (BTree.node blk (l ++ e :: r) (lk ++ rk))).ids :=
    hids.mem_iff.2 (List.mem_append_left _ List.mem_cons_self)
  have hmemf : f.id ∈ ((Path.step f p).plug (BTree.node blk (l ++ e :: r) (lk ++ rk))).ids :=
    hids.mem_iff.2 (List.mem_append_right _ List.mem_cons_self)
  have hnd := hids.nodup_iff.1 h.nodup
  have hblk := h.has hmem
  have hroot : blk ≠ s.ctx.super.scroot := by
    rw [← h.link, link_plug]
    have htop := Path.top_step_mem f p blk
    intro heq
    exact (List.nodup_append.1 hnd).2.2 blk List.mem_cons_self _ htop heq
  have htype : (s.disk.block blk).btype = ZINUSE := by
    rw [h.kind blk hmem, if_neg hroot]
  simp only [bsptbk, exec_bind, exec_bgtinf hblk, Prog.Outcome.bind_done, Block.getInf_ZBTYPE, htype,
    exec_ite]
  rw [if_neg (by decide)]
  simp only [exec_bsetbs hblk, Prog.Outcome.bind_done]
  refine Prog.Outcome.Ends.bind (ends_bgtfre h.store hE) ?_
  rintro ⟨new,s1⟩ ⟨fs',hgave,hfree⟩
  have hblock := hgave.block
  have hctx := hgave.ctx
  simp only at hblock hctx
  have hnew : s1.disk.Has new := hgave.store.has_used List.mem_cons_self
  have hblk1 : s1.disk.Has blk :=
    hgave.store.has_used (List.mem_cons_of_mem _ (List.mem_append_left _ hmem))
  have hf1 : s1.disk.Has f.id :=
    hgave.store.has_used (List.mem_cons_of_mem _ (List.mem_append_left _ hmemf))
  have hnewids := (List.nodup_cons.1 hgave.store.nodup_used).1
  have hne : new ≠ blk := fun heq => hnewids (List.mem_append_left _ (heq ▸ hmem))
  have hnef : new ≠ f.id := fun heq => hnewids (List.mem_append_left _ (heq ▸ hmemf))
  have hnefb : f.id ≠ blk := by
    simp only [Path.ids_step, Frame.ids, BTree.ids_node, List.cons_append] at hnd
    grind
  have hlf : s1.ctx.lf.lfblk = f.id := by rw [hctx]; exact hf
  have hholds := h.holds
  rw [holds_plug_iff, pathHolds_step, holds_node, nodeLinks_of_ne (by simp)] at hholds
  obtain ⟨⟨⟨hshowf,-⟩,-⟩,hshow,-⟩ := hholds
  have hkn : (s1.disk.block blk).nkeys = ZMXKEY := by
    rw [hblock, hshow.nkeys, List.length_append, List.length_cons]
    omega
  have hfn : (s1.disk.block f.id).nkeys ≠ ZMXKEY := by
    rw [hblock, hshowf.nkeys, List.length_append]
    simp only [Frame.size] at hroom
    omega
  have hkey : (s1.disk.block blk).keyblk sp = e := by
    have := (Reads.append_iff.1 hshow.keys).2.1
    rwa [zero_add, hl, ← hblock] at this
  have hsp' : (sp : Int) < ZMXKEY := by omega
  have hlt := hnew.1
  simp only
  rw [if_neg (not_lt.2 hlt)]
  simp only [exec_get, exec_bcpybk, exec_bsetbk, exec_bstinf, exec_bsetbs, exec_bputky,
    exec_bsrhbk_loc, exec_pure, Prog.Outcome.bind_done, Disk.has_put, Disk.block_put,
    Function.update_self, Function.update_of_ne, hnew, hblk1, hf1, hlf, hkn, hkey, hsp', hne.symm,
    hnef.symm, hnefb, hfn, ne_eq, not_true_eq_false, not_false_eq_true, if_false, Int.natCast_nonneg,
    Int.toNat_natCast, Block.setInf_ZNKEYS, Prog.Outcome.ends_done]
  rw [hblock]
  refine ⟨hlt,fs',and_assoc.1 ⟨h.split (b := s.disk.block new) hgave hlk hrk hle hre hpos ?_ ?_ ?_ rfl
    ?_ ?_ ?_ ?_,?_,?_,?_,fun c hc => took hfree hc,hgave.reaches⟩⟩
  · exact List.ne_nil_of_length_pos (by omega)
  · exact List.ne_nil_of_length_pos (by omega)
  · rw [hctx]
  · simp only [Disk.block_put, Function.update_of_ne hnefb.symm, Function.update_self, hl]
  · simp only [Disk.block_put, Function.update_of_ne hnef, Function.update_of_ne hne,
      Function.update_self, hl, hr]
    exact ⟨rfl,rfl,rfl,rfl⟩
  · simp only [Disk.block_put, Function.update_self]
  · intro c h1 h2 h3
    simp only [Disk.block_put, Function.update_of_ne h3, Function.update_of_ne h1,
      Function.update_of_ne h2, hblock]
  · rw [hctx]
  · rw [hctx]
  · rw [hctx]

end NonRoot

section Root

variable {blk a b : Int} {l r : List KeyEnt} {e : KeyEnt} {lk rk : List (KeyTree n)}
  {D D' : Int → Block}

theorem Index.splitRoot [Build] {s1 s2 s' : St} {fs1 fs' : List Int} {t u : Block}
    (h : Index s (BTree.node blk (l ++ e :: r) (lk ++ rk)) fs os)
    (hgave1 : Gave s ((BTree.node blk (l ++ e :: r) (lk ++ rk)).ids ++ os) a fs1 s1)
    (hgave : Gave s1 (a :: ((BTree.node blk (l ++ e :: r) (lk ++ rk)).ids ++ os)) b fs' s2)
    (hlk : lk.length = l.length + 1) (hrk : rk.length = r.length + 1) (hl : l ≠ []) (hr : r ≠ [])
    (hctx : s'.ctx = { s.ctx with super := s2.ctx.super, keyent := e })
    (hsize : s'.disk.size = s2.disk.size)
    (hDa : (s'.disk.block a).nkeys = l.length ∧
      (s'.disk.block a).keyblk = (t.cpybk (s.disk.block blk) 0 0 l.length).keyblk ∧
      (s'.disk.block a).lnkblk = (t.cpybk (s.disk.block blk) 0 0 l.length).lnkblk)
    (hDb : (s'.disk.block b).nkeys = r.length ∧
      (s'.disk.block b).keyblk = (u.cpybk (s.disk.block blk) 0 (l.length + 1) r.length).keyblk ∧
      (s'.disk.block b).lnkblk = (u.cpybk (s.disk.block blk) 0 (l.length + 1) r.length).lnkblk)
    (htype : (s'.disk.block a).btype = ZINUSE ∧ (s'.disk.block b).btype = ZINUSE)
    (hDblk : s'.disk.block blk = { (s.disk.block blk).repky 0 e a b with nkeys := 1 })
    (hD : ∀ c, c ≠ blk → c ≠ a → c ≠ b → s'.disk.block c = s.disk.block c) :
    Index s' (BTree.node blk [e] [BTree.node a l lk, BTree.node b r rk]) fs' os ∧ Keeps s s' os := by
  have hperm : ((BTree.node blk [e] [BTree.node a l lk, BTree.node b r rk]).ids).Perm
      (b :: a :: (BTree.node blk (l ++ e :: r) (lk ++ rk)).ids) := by
    simp only [BTree.ids_node, List.map_cons, List.map_nil, List.flatten_cons, List.flatten_nil,
      List.append_nil, List.map_append, List.flatten_append, List.cons_append]
    refine ((List.perm_middle.cons a).cons blk).trans ?_
    exact ((List.Perm.swap b a _).cons blk).trans
      ((List.Perm.swap b blk _).trans ((List.Perm.swap a blk _).cons b))
  have hnd := hgave.store.nodup_used
  have hnd' := hnd
  rw [← List.cons_append, ← List.cons_append, List.nodup_append] at hnd'
  simp only [BTree.ids_node, List.cons_append, List.nodup_cons, List.mem_cons, List.mem_append,
    not_or] at hnd hnd'
  have hstore : Store s2 fs' ((BTree.node blk [e] [BTree.node a l lk, BTree.node b r rk]).ids ++ os) :=
    hgave.store.perm (hperm.symm.append_right os)
  have hroot : s'.ctx.super.scroot = s.ctx.super.scroot := by
    rw [hctx]
    exact hgave.root.trans hgave1.root
  have hblk : blk = s.ctx.super.scroot := h.link
  have hholds := h.holds
  rw [holds_node, nodeLinks_of_ne (by simp), List.map_append] at hholds
  obtain ⟨hc,hkids⟩ := hholds
  have hkid : ∀ k ∈ lk ++ rk, Holds s'.disk.block k := fun k hk =>
    (hkids k hk).congr fun c hck => by
      have : c ∈ ((lk ++ rk).map BTree.ids).flatten :=
        List.mem_flatten.2 ⟨_,List.mem_map_of_mem hk,hck⟩
      exact hD c (by grind) (by grind) (by grind)
  have hkeys := Reads.append_iff.1 hc.keys
  have hlinks := Reads.append_iff.1 hc.links
  rw [zero_add] at hkeys hlinks
  rw [List.length_map, hlk] at hlinks
  refine ⟨h.change ?_ hroot ?_ (hstore.transfer hsize ?_ ?_ ?_) ?_,
    ⟨by rw [hctx],by rw [hctx],by rw [hctx],hroot,?_,?_,?_⟩⟩
  · rfl
  · rw [holds_node, nodeLinks_succ, hDblk]
    refine ⟨Block.repky_single _ _ _ _,?_⟩
    simp only [List.mem_cons, List.not_mem_nil, or_false, forall_eq_or_imp, forall_eq]
    exact ⟨holds_copy (k := 0) hkeys.1 hlinks.1 hlk hl hDa
      fun k hk => hkid k (List.mem_append_left _ hk),
      holds_copy hkeys.2.2 (by exact_mod_cast hlinks.2) hrk hr hDb
      fun k hk => hkid k (List.mem_append_right _ hk)⟩
  · intro c hcf
    rw [hgave.block, hgave1.block]
    have hcu := fun hu => hgave.store.not_mem_free hu hcf
    simp only [BTree.ids_node, List.cons_append, List.mem_cons, List.mem_append] at hcu
    exact hD c (by grind) (by grind) (by grind)
  · rw [hctx]
  · rw [hctx]
  · intro c hc'
    rcases List.mem_cons.1 (hperm.mem_iff.1 hc') with rfl | hc'
    · exact Or.inr ⟨hnd.1.2.1,htype.2⟩
    · rcases List.mem_cons.1 hc' with rfl | hc'
      · exact Or.inr ⟨hnd.2.1.1,htype.1⟩
      · refine Or.inl ⟨hc',?_⟩
        by_cases hcb : c = blk
        · rw [hcb, hDblk]
          rfl
        · have hck : c ∈ ((lk ++ rk).map BTree.ids).flatten := (List.mem_cons.1 hc').resolve_left hcb
          rw [hD c hcb (ne_of_mem_of_not_mem hck hnd.2.1.2.1) (ne_of_mem_of_not_mem hck hnd.1.2.2.1)]
  · rw [hctx]
    exact hgave.mode.trans hgave1.mode
  · intro c hco
    exact hD c (by grind) (by grind) (by grind)
  · rw [← hblk, hDblk]
    exact ⟨rfl,rfl,rfl,rfl,rfl,rfl,rfl⟩

theorem ends_bsptbk_root [Build] (hcap : 3 ≤ ZMXKEY)
    (h : Index s (BTree.node blk (l ++ e :: r) (lk ++ rk)) fs os)
    (hl : l.length = sp) (hr : r.length = sp2) (hlk : lk.length = l.length + 1)
    (hrk : rk.length = r.length + 1) (hE : ∀ o d, NoBlock o d → E o d) :
    (exec (bsptbk blk) s).Ends E fun o => 0 ≤ o.1 ∧ ∃ fs' b,
      Index o.2 (BTree.node blk [e] [BTree.node o.1 l lk, BTree.node b r rk]) fs' os ∧
      Keeps s o.2 os ∧ o.2.ctx.lf = s.ctx.lf ∧ o.2.ctx.stk = s.ctx.stk ∧ o.2.ctx.err = s.ctx.err ∧
      (∀ c ∈ fs, c ∈ fs' ∨ c = o.1 ∨ c = b) ∧ s.disk.Reaches o.2.disk := by
  have hsp := sp_add hcap
  have hmem : blk ∈ (BTree.node blk (l ++ e :: r) (lk ++ rk)).ids := List.mem_cons_self
  have hblk := h.has hmem
  have htype : (s.disk.block blk).btype = ZROOT := by
    rw [h.kind blk hmem]
    exact if_pos h.link
  simp only [bsptbk, exec_bind, exec_bgtinf hblk, Prog.Outcome.bind_done, Block.getInf_ZBTYPE, htype,
    exec_ite, if_true]
  refine Prog.Outcome.Ends.bind (ends_bgtfre h.store hE) ?_
  rintro ⟨a,s1⟩ ⟨fs1,hgave1,hfree1⟩
  have ha := (hgave1.store.has_used List.mem_cons_self).1
  simp only
  rw [if_neg (not_lt.2 ha)]
  refine Prog.Outcome.Ends.bind (ends_bgtfre hgave1.store hE) ?_
  rintro ⟨b,s2⟩ ⟨fs',hgave,hfree⟩
  have hb2 : s2.disk.Has b := hgave.store.has_used List.mem_cons_self
  have ha2 : s2.disk.Has a := hgave.store.has_used (List.mem_cons_of_mem _ List.mem_cons_self)
  have hblk2 : s2.disk.Has blk := hgave.store.has_used
    (List.mem_cons_of_mem _ (List.mem_cons_of_mem _ (List.mem_append_left _ hmem)))
  have hblock : s2.disk.block = s.disk.block := hgave.block.trans hgave1.block
  have hctx : s2.ctx = { s.ctx with super := s2.ctx.super } := by
    have h2 := hgave.ctx
    simp only at h2
    rw [h2, hgave1.ctx]
  have hnd := hgave.store.nodup_used
  simp only [BTree.ids_node, List.cons_append, List.nodup_cons, List.mem_cons, List.mem_append,
    not_or] at hnd
  have hab : a ≠ b := Ne.symm hnd.1.1
  have hblkb : blk ≠ b := Ne.symm hnd.1.2.1
  have hblka : blk ≠ a := Ne.symm hnd.2.1.1
  have hholds := h.holds
  rw [holds_node, nodeLinks_of_ne (by simp)] at hholds
  obtain ⟨hshow,-⟩ := hholds
  have hkn : (s2.disk.block blk).nkeys = ZMXKEY := by
    rw [hblock, hshow.nkeys, List.length_append, List.length_cons]
    omega
  have hkey : (s2.disk.block blk).keyblk sp = e := by
    have := (Reads.append_iff.1 hshow.keys).2.1
    rwa [zero_add, hl, ← hblock] at this
  have hsp' : (sp : Int) < ZMXKEY := by omega
  have h0 : (0 : Int) < ZMXKEY := by omega
  simp only
  rw [if_neg (not_lt.2 hb2.1)]
  simp only [exec_get, exec_bcpybk, exec_bsetbk, exec_bstinf, exec_brepky, exec_bsrhbk_loc, exec_pure,
    Prog.Outcome.bind_done, Disk.has_put, Disk.block_put, Function.update_self, Function.update_of_ne,
    hb2, ha2, hblk2, hkn, hkey, hsp', h0, hab, hblkb, hblka, ne_eq,
    not_true_eq_false, not_false_eq_true, if_false, Int.natCast_nonneg, le_refl,
    Int.toNat_natCast, Block.setInf_ZNKEYS, Prog.Outcome.ends_done]
  rw [hblock]
  refine ⟨ha,fs',b,and_assoc.1 ⟨h.splitRoot (t := s.disk.block a) (u := s.disk.block b) hgave1 hgave
    hlk hrk ?_ ?_ ?_ rfl ?_ ?_ ?_ ?_ ?_,?_,?_,?_,fun c hc => ?_,hgave1.reaches.trans hgave.reaches⟩⟩
  · exact List.ne_nil_of_length_pos (by omega)
  · exact List.ne_nil_of_length_pos (by omega)
  · rw [hctx]
  · simp only [Disk.block_put, Function.update_of_ne hblka.symm, Function.update_of_ne hab,
      Function.update_self, hl]
    exact ⟨rfl,rfl,rfl⟩
  · simp only [Disk.block_put, Function.update_of_ne hblkb.symm, Function.update_of_ne hab.symm,
      Function.update_self, hl, hr]
    exact ⟨rfl,rfl,rfl⟩
  · simp only [Disk.block_put, Function.update_of_ne hblka.symm, Function.update_of_ne hblkb.symm,
      Function.update_of_ne hab, Function.update_self]
    exact ⟨rfl,rfl⟩
  · simp only [Disk.block_put, Function.update_self]
  · intro c h1 h2 h3
    simp only [Disk.block_put, Function.update_of_ne h3, Function.update_of_ne h1,
      Function.update_of_ne h2, hblock]
  · rw [hctx]
  · rw [hctx]
  · rw [hctx]
  · rcases took hfree1 hc with hc | hc
    · exact (took hfree hc).imp_right Or.inr
    · exact Or.inr (Or.inl hc)

end Root

end Btlib
