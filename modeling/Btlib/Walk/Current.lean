import Btlib.Walk.Mixed

namespace Btlib

open Multiway Links

section Calls

variable [Build] {n m : Nat} {s s' : St} {fs D os : List Int} {nd : Int → Nat} {live live' : Finset (Int × Nat)}
  {ent ent' : Int × Nat → DKey} {vals vals' : KeyEnt → List Int} {t : KeyTree m} {μ : Key → List Int} {keys : Nat}
  {o : Standing} {k : Key} {v : Int} {L l a : List Item} {c : Cursor Item} {e e' : KeyEnt} {r after A B : List KeyEnt}
  {ps ps' : List (Int × Nat)} {lvs rvs vs : List Int}

-- A root of a handle of its own with the entries `L` in order, and the last found position at `o`.
def Entries (s : St) (os : List Int) (μ : Key → List Int) (keys : Nat) (L : List Item) (o : Standing) : Prop :=
  Writable s ∧ ∃ (m : Nat) (t : KeyTree m) (fs D : List Int) (nd : Int → Nat) (live : Finset (Int × Nat))
    (ent : Int × Nat → DKey), Listed s t fs D os nd live ent μ ∧ t.inorder.length ≤ keys ∧
      items (fun e => μ e.key) t.inorder = L ∧ Position s t live ent (fun e => μ e.key) o

theorem Entries.selects (h : Entries s os μ keys L o) : Selects s os μ keys o := by
  obtain ⟨hw,m,t,fs,D,nd,live,ent,hl,hlen,-,hp⟩ := h
  exact ⟨hw,m,t,fs,D,nd,live,ent,hl,hlen,hp⟩

theorem Selects.entries (h : Selects s os μ keys o) : ∃ L, Entries s os μ keys L o := by
  obtain ⟨hw,m,t,fs,D,nd,live,ent,hl,hlen,hp⟩ := h
  exact ⟨_,hw,m,t,fs,D,nd,live,ent,hl,hlen,rfl,hp⟩

-- The entries around a place are all there are.
theorem Position.cursor_eq (hp : Position s t live ent vals (.place c)) :
    items vals t.inorder = c.before ++ c.cur.toList ++ c.after := by
  rcases hp with (⟨f,p,h⟩ | ⟨n,f,d,p,e,r,after,ps,lvs,v,rvs,h⟩) | ⟨n,f,d,p,e,r,after,us,ws,lvs,rvs,q,v,h⟩
  · rw [h.cursor, ← h.plug]
    change items vals ((Path.step f p).plug BTree.nil).inorder = _
    rw [Path.inorder_plug, BTree.inorder_zero, List.append_nil]
    simp
  · rw [h.cursor, ← h.plug, inorder_behind h.right, items_append, items_cons, h.split]
    simp
  · rw [h.cursor, ← h.plug, inorder_behind h.right, items_append, items_cons, h.split]
    simp

theorem Entries.list_eq (h : Entries s os μ keys L (.place c)) : L = c.before ++ c.cur.toList ++ c.after := by
  obtain ⟨-,m,t,fs,D,nd,live,ent,-,-,rfl,hp⟩ := h
  exact hp.cursor_eq

section Entry

variable {f : KeyFrame n} {d : KeyTree n} {p : KeyPath (n + 1) m}

theorem OnValue.atEntry (h : OnValue s t c live ent vals f d p e r after ps lvs v rvs) :
    AtEntry s t live ent vals f d p e r after ps :=
  ⟨h.plug,h.onKey.blk,h.onKey.pos,h.onKey.stack,h.onKey.ents,h.lfkey,h.right,h.chained⟩

namespace AtEntry

theorem node (h : AtEntry s t live ent vals f d p e r after ps) :
    t = p.plug (BTree.node f.id (f.le ++ e :: r) (f.lk ++ d :: f.rk)) := by
  rw [← h.plug, Frame.fill, h.ents]

theorem inorder (h : AtEntry s t live ent vals f d p e r after ps) :
    t.inorder = (Path.step f p).left ++ d.inorder ++ e :: after := by
  rw [← h.plug, inorder_behind h.right]

theorem located (h : AtEntry s t live ent vals f d p e r after ps) (hm : m ≤ 20) : Located s p f.id f.le e := by
  have hht := p.height_eq
  exact ⟨h.lfkey,h.blk,h.pos,h.stack,by omega⟩

theorem found (h : AtEntry s t live ent vals f d p e r after ps) (hl : Listed s t fs D os nd live ent μ)
    (herr : s.ctx.err.qerror = 0) : Found s (t.ids ++ os) f.id f.le.length e := by
  have hnode := h.node
  rw [hnode] at hl ⊢
  have hp := hl.formed.placed
  exact ⟨List.mem_append_left _ hp.mem,Int.natCast_nonneg _,hp.loc,hp.ent,h.blk,h.pos,herr⟩

-- The last found position once the entry has changed, with the same key.
theorem turn (vals' : KeyEnt → List Int) (h : AtEntry s t live ent vals f d p e r after ps) (hed : Edit s s' os f.id f.le.length e')
    (hkey : e'.key = e.key) (hc : Chained live' ent' e' ps' (vals' e')) : ∃ f' : KeyFrame n,
      AtEntry s' (p.plug (BTree.node f.id (f.le ++ e' :: r) (f.lk ++ d :: f.rk))) live' ent' vals' f' d p e' r after ps' ∧
        (Path.step f' p).left = (Path.step f p).left := by
  have hstk : s'.ctx.stk = s.ctx.stk := by rw [hed.ctx]
  obtain ⟨hplug,hblk,hpos,hstack,hents,hlfkey,hright,-⟩ := h
  obtain ⟨id,le,lk,re,rk,hl,hr⟩ := f
  obtain rfl : re = e :: r := hents
  obtain rfl : weave (rk.map BTree.inorder) r ++ p.right = after := (List.cons.inj hright).2
  exact ⟨⟨id,le,lk,e' :: r,rk,hl,hr⟩,⟨rfl,hed.blk.trans hblk,hed.pos.trans hpos,hstk.trans hstack,rfl,
    hed.lfkey.trans (hlfkey.trans hkey.symm),rfl,hc⟩,rfl⟩

end AtEntry

end Entry

section Items

omit [Build] in
theorem items_congr (h : ∀ x ∈ A, vals x = vals' x) : items vals A = items vals' A := by
  induction A with
  | nil => rfl
  | cons x A ih =>
      rw [items_cons, items_cons, h x List.mem_cons_self, ih fun y hy => h y (List.mem_cons_of_mem x hy)]

omit [Build] in
theorem sorted_cut {A' B' : List KeyEnt} (h : Sorted KeyEnt.key (A ++ e :: B)) (heq : A ++ e :: B = A' ++ e :: B') :
    A' = A ∧ B' = B := by
  have hrest : ∀ {X Y : List KeyEnt}, Sorted KeyEnt.key (X ++ e :: Y) → ∀ x ∈ e :: Y, ¬ x.key < e.key := fun h x hx => by
    rcases List.mem_cons.1 hx with rfl | hx
    · exact lt_irrefl _
    · exact ((List.pairwise_cons.1 h.right).1 x hx).le.not_gt
  have h' := heq ▸ h
  obtain ⟨rfl,hB⟩ := Cursor.cut_unique (p := fun x => x.key < e.key) heq (fun x hx => h.lt hx List.mem_cons_self) (hrest h)
    (fun x hx => h'.lt hx List.mem_cons_self) (hrest h')
  exact ⟨rfl,(List.cons.inj hB).2.symm⟩

omit [Build] in
-- The values of a key are of no account to the others.
theorem items_update (h : Sorted KeyEnt.key (A ++ e :: B)) (vs : List Int) :
    items (fun x => Function.update μ e.key vs x.key) A = items (fun x => μ x.key) A ∧
      items (fun x => Function.update μ e.key vs x.key) B = items (fun x => μ x.key) B := by
  refine ⟨items_congr fun x hx => ?_,items_congr fun x hx => ?_⟩
  · exact Function.update_of_ne (h.lt hx List.mem_cons_self).ne _ _
  · exact Function.update_of_ne ((List.pairwise_cons.1 h.right).1 x hx).ne' _ _

end Items

theorem ends_modifyKey_none {E : Op → Disk → Prop} {Q : Int × St → Prop} {fn : String} {body : BT Unit} (hw : Writable s)
    (hbody : (exec body s.clear).Ends E fun r => r.2.ctx.shared = false ∧ Q (r.2.ctx.err.qerror, r.2)) :
    (exec (modifyKey fn none body) s).Ends E Q := by
  have hshared : s.clear.ctx.shared = false := hw.shared
  have hmode : ¬ s.clear.ctx.super.smode ≠ 0 := not_not.2 hw.mode
  rw [modifyKey, exec_api hw.isopen, errOf, exec_bind]
  simp only [exec_bind, exec_get, Prog.Outcome.bind_done, exec_ite, within, enter, hshared, Bool.false_eq_true, if_false,
    exec_pure, if_true, findKey, if_neg hmode]
  rw [Prog.Outcome.ends_bind, Prog.Outcome.ends_bind]
  refine hbody.mono (fun _ _ h => h) fun r hr => ?_
  obtain ⟨hsh,hq⟩ := hr
  simp only [leave, exec_bind, exec_get, Prog.Outcome.bind_done, exec_ite, hsh, Bool.false_eq_true, if_false, exec_pure,
    Prog.Outcome.ends_done, exec_btgerr]
  exact hq

section Delete

-- What the deletion of the only value of a key asks for: at most 20 levels, and siblings with room where nodes are
-- emptied.
def Mends (s : St) (os : List Int) (μ : Key → List Int) (k : Key) : Prop :=
  ∀ (m : Nat) (t : KeyTree m) (fs D : List Int) (nd : Int → Nat) (live : Finset (Int × Nat)) (ent : Int × Nat → DKey),
    Listed s t fs D os nd live ent μ → m ≤ 20 ∧ ∀ e ∈ t.inorder, e.key = k →
      ∀ (q : KeyPath 1 m) (c : Int) (l : List KeyEnt) (x : KeyEnt) (r : List KeyEnt), Yields t e q c l x r →
        SiblingRoom q (l ++ r)

-- The deletion of the selected duplicate leaves nothing in use in its block, and others of its key in other blocks.
def Frees (s : St) (μ : Key → List Int) (k : Key) : Prop :=
  (μ k).length ≠ 1 ∧ (s.disk.block (cnvdraddr s.ctx.lf.draddr).1).misc + entSz = ZDATSZ

variable {f : KeyFrame n} {d : KeyTree n} {p : KeyPath (n + 1) m}

theorem Dups.only_iff {q : Int × Nat} (h : Dups s fs D os nd live ent) (hq : q ∈ live) :
    Only live q ↔ (s.disk.block (cnvdraddr (addr q)).1).misc + entSz = ZDATSZ := by
  have hmisc := (h.block q.1 (h.seg q hq).1).misc
  have hpos : (entSz : Int) ≠ 0 := Int.natCast_ne_zero.2 entSz_pos.ne'
  rw [h.cnvdraddr_addr hq, hmisc, Only]
  refine ⟨fun h1 => by rw [h1]; ring,fun h1 => ?_⟩
  have hmul : (((live.filter fun p => p.1 = q.1).card : Int) - 1) * entSz = 0 := by
    rw [sub_mul, one_mul]
    omega
  have := (mul_eq_zero.1 hmul).resolve_right hpos
  omega

-- The selected value goes: the position is in its place, or in a block that has gone to the free list.
theorem OnValue.ends_bdelk1 (hb : Sized) (hcap : 8 ≤ ZMXKEY)
    (hv : OnValue s t c live ent (fun e => μ e.key) f d p e r after ps lvs v rvs) (hl : Listed s t fs D os nd live ent μ)
    (hw : Writable s) (herr : s.ctx.err.qerror = 0) (hfuel : 2 * t.inorder.length + 3 ≤ FUEL) (hlen : t.inorder.length ≤ keys)
    (hmends : (μ e.key).length = 1 → Mends s os μ e.key) :
    (exec (bdelk1 none) s).Ends (Refused s.ctx.super.scroot) fun a => a.2.ctx.shared = false ∧ a.2.ctx.err.qerror = 0 ∧
      SameRoot s a.2 ∧ ∃ o, Entries a.2 os (Function.update μ e.key (lvs ++ rvs)) keys (c.before ++ c.after) o ∧
        (Frees s μ e.key ∧ o = .freed ∨ ¬ Frees s μ e.key ∧ o = .place ⟨c.before,none,c.after⟩) := by
  have hat := hv.atEntry
  have hnode := hat.node
  have hin := hat.inorder
  have hfound := hat.found hl herr
  have hfits := hl.fits e.key
  have hvs : μ e.key = lvs ++ v :: rvs := hv.split
  have hc : Chained live ent e ps (lvs ++ v :: rvs) := hvs ▸ hv.chained
  have hx : s.ctx.lf.lfexct = true := hv.onKey.exct
  have hsort := hin ▸ hl.formed.sorted
  obtain ⟨hleft,hright⟩ := items_update (μ := μ) hsort (lvs ++ rvs)
  have hbefore : c.before = items (fun x => μ x.key) ((Path.step f p).left ++ d.inorder) ++ lvs.map (e.key, ·) := by
    rw [hv.cursor]
  have hafter : c.after = rvs.map (e.key, ·) ++ items (fun x => μ x.key) after := by rw [hv.cursor]
  obtain ⟨s2,fs2,D2,live2,ent2,⟨hnil,hrun,hd,hfr,hed⟩ | ⟨hne,hrun,e2,us,q,ws,hps,hus,ht,hlf,hq⟩⟩ :=
    hl.whole.dups.exec_btdeldup hb hfound hv.onDup hc
  · -- the last value of the key: its entry goes too
    obtain ⟨rfl,rfl⟩ := List.append_eq_nil_iff.1 hnil
    obtain ⟨hm,hsib⟩ := hmends (by rw [hvs]; rfl) m t fs D nd live ent hl
    have he : e ∈ t.inorder := hin ▸ List.mem_append_right _ List.mem_cons_self
    have hsib := hsib e he rfl
    have hloc := hat.located hm
    rw [hnode] at hl hed hd hsib hfuel hlen
    have hw2 := hed.writable hw
    have hstk : s2.ctx.stk = s.ctx.stk := by rw [hed.ctx]
    have hloc2 : Located s2 p f.id f.le e := ⟨hed.lfkey.trans hloc.lfkey,hed.blk.trans hloc.lfblk,hed.pos.trans hloc.lfpos,
      hstk.trans hloc.stack,hloc.depth⟩
    have herr2 : s2.ctx.err.qerror = 0 := by
      rw [hed.ctx]
      exact herr
    have hends := hloc2.ends_bdelk1Key (hed.formed hl.formed rfl hd) hw2 hcap (fun q c l x r hy _ => hsib q c l x r hy)
      herr2 hfuel (k := none) fun key hk => absurd hk (Option.not_mem_none key)
    rw [hed.root] at hends
    simp only [bdelk1, exec_bind, exec_get, Prog.Outcome.bind_done, exec_ite, hx, not_true_eq_false, if_false, hrun, if_true]
    refine hends.mono (fun _ _ h => h) fun a ha => ?_
    obtain ⟨m2,t2,fs3,hout⟩ := ha
    have hnew := hl.without hb hed hd hfr hout
    have hw3 := hw2.keeps hout.keeps
    obtain ⟨A,B,hT,hin2⟩ := hout.drop
    obtain ⟨g,u,rfl,hgap⟩ := hout.gap
    rw [← hnode, hin] at hT
    rw [Path.inorder_plug, BTree.inorder_zero, List.append_nil] at hin2
    obtain ⟨rfl,rfl⟩ := sorted_cut hsort hT
    obtain ⟨hl2,hr2⟩ := Cursor.cut_unique (p := fun x => x.key < e.key) hin2 hgap.before (fun x hx => (hgap.after x hx).le.not_gt)
      (fun x hx => hsort.lt hx List.mem_cons_self) fun x hx => ((List.pairwise_cons.1 hsort.right).1 x hx).le.not_gt
    have hgone : c.before = items (fun x => Function.update μ e.key [] x.key) (Path.step g u).left ∧
        c.after = items (fun x => Function.update μ e.key [] x.key) (Path.step g u).right := by
      rw [hl2, hr2]
      exact ⟨by rw [hbefore, List.map_nil, List.append_nil]; exact hleft.symm,by rw [hafter]; exact hright.symm⟩
    refine ⟨hw3.shared,hout.err,(hed.sameRoot hl.whole.dups.root).trans hout.keeps.sameRoot,_,
      ⟨hw3,m2,_,fs3,D2,nd,live2,ent2,hnew,?_,?_,hgap.position _⟩,Or.inr ⟨fun hfrees => hfrees.1 (by rw [hvs]; rfl),?_⟩⟩
    · rw [Path.inorder_plug, BTree.inorder_zero, List.append_nil, hin2]
      rw [← hnode, hin] at hlen
      simp only [List.length_append, List.length_cons] at hlen ⊢
      omega
    · rw [Path.inorder_plug, BTree.inorder_zero, List.append_nil, items_append, hgone.1, hgone.2]
      simp only [List.append_nil]
    · rw [hgone.1, hgone.2]
      rfl
  · have hall : ∀ u ∈ lvs ++ rvs, Fits u := fun u hu => hfits u (by
      rw [hvs, List.perm_middle.mem_iff]
      exact List.mem_cons_of_mem v hu)
    have hvals : Function.update μ e.key (lvs ++ rvs) e2.key = lvs ++ rvs := by rw [ht.key, Function.update_self]
    have hrest : us ++ ws ≠ [] := fun hrest => by
      have hlen' := hc.length_eq (hps ▸ List.append_ne_nil_of_right_ne_nil us (List.cons_ne_nil q ws))
      have hcount := congrArg List.length hrest
      rw [hps] at hlen'
      simp only [List.length_append, List.length_cons, List.length_nil] at hlen' hcount
      exact hne (List.length_eq_zero_iff.1 (by rw [List.length_append]; omega))
    obtain ⟨f',hat2,hleft2⟩ := hat.turn (fun x => Function.update μ e.key (lvs ++ rvs) x.key) ht.edit ht.key
      (hvals.symm ▸ ht.chained)
    have hz : (0 : Int) ≠ ZNULL := by decide
    simp only [bdelk1, exec_bind, exec_get, Prog.Outcome.bind_done, exec_ite, hx, not_true_eq_false, if_false,
      hrun, hz, exec_pure, Prog.Outcome.ends_done]
    have hed := ht.edit
    have hdraddr : s.ctx.lf.draddr = addr q ∧ q ∈ live := by
      obtain ⟨us',q',ws',hps',hus',hd⟩ := hv.onDup.resolve_left fun hnil =>
        List.append_ne_nil_of_right_ne_nil us (List.cons_ne_nil q ws) (hps ▸ hnil.1)
      obtain ⟨-,hq'⟩ := List.append_inj (hps ▸ hps') (hus.trans hus'.symm)
      obtain ⟨-,-,-,-,hlinked⟩ := hc.resolve_left fun hnil =>
        List.append_ne_nil_of_right_ne_nil us (List.cons_ne_nil q ws) (hps ▸ hnil.1)
      exact ⟨by rw [hd, (List.cons.inj hq').1],(hps ▸ hlinked).middle hus |>.1⟩
    have hmany : (μ e.key).length ≠ 1 := fun hone => hne (by
      rw [hvs, List.length_append, List.length_cons] at hone
      exact List.length_eq_zero_iff.1 (by rw [List.length_append]; omega))
    have hfrees : Only live q ↔ Frees s μ e.key := by
      rw [hl.whole.dups.only_iff hdraddr.2, Frees, hdraddr.1]
      exact (and_iff_right hmany).symm
    have hnew := (hnode ▸ hl).turn (hnode ▸ ht) hall
    have hw2 := hed.writable hw
    have hin2 := hat2.inorder
    rw [hleft2] at hin2
    have hlist : items (fun x => Function.update μ e.key (lvs ++ rvs) x.key)
        (p.plug (BTree.node f.id (f.le ++ e2 :: r) (f.lk ++ d :: f.rk))).inorder = c.before ++ c.after := by
      rw [hin2, items_append, items_cons, hvals, ht.key, hleft, hright, hbefore, hafter]
      simp
    have hcount : (p.plug (BTree.node f.id (f.le ++ e2 :: r) (f.lk ++ d :: f.rk))).inorder.length ≤ keys := by
      rw [hin2]
      rw [hin] at hlen
      simpa using hlen
    refine ⟨hw2.shared,by rw [hed.ctx]; exact herr,hed.sameRoot hl.whole.dups.root,?_⟩
    rcases hat2.deleted hvals hus hrest (by rw [hlf]) (by rw [hlf]; exact hdraddr.1) (ht.key.symm ▸ hq) with
      ⟨hgone,hp⟩ | ⟨hgone,hp⟩
    · exact ⟨_,⟨hw2,m,_,fs2,D2,nd,live2,ent2,hnew,hcount,hlist,hp⟩,Or.inl ⟨hfrees.1 hgone,rfl⟩⟩
    · refine ⟨_,⟨hw2,m,_,fs2,D2,nd,live2,ent2,hnew,hcount,hlist,hp⟩,Or.inr ⟨fun h => hgone (hfrees.2 h),?_⟩⟩
      rw [hbefore, hafter, hleft2, hleft, hright, ht.key]

theorem Mends.same (h : Mends s os μ k) (hdisk : s'.disk = s.disk) (hsuper : s'.ctx.super = s.ctx.super) : Mends s' os μ k :=
  fun m t fs D nd live ent hl => h m t fs D nd live ent (hl.same hdisk.symm hsuper.symm)

-- A root of few keys asks for nothing.
theorem Mends.of_few (hfew : Few (fun k => (μ k).head?) (2 * ZMXKEY)) (hcap : 2 * ZMXKEY + 1 < 2 ^ 21) : Mends s os μ k := by
  intro m t fs D nd live ent hl
  have hlen := hl.length_le hfew
  have hwf := hl.formed.wf
  refine ⟨?_,fun e _ _ q c l x r hy f p hq _ => ?_⟩
  · by_contra hm
    have hfloor : (Path.root : KeyPath m m).floor = 1 := if_neg (by omega)
    have hpow := BTree.two_pow_le_length (hfloor ▸ hwf : t.Wf ZMXKEY 1)
    have hmono : (2 : Nat) ^ 21 ≤ 2 ^ m := Nat.pow_le_pow_right (by decide) (by omega)
    omega
  · obtain ⟨hT,-⟩ := hy
    subst hq
    rw [hT] at hwf hlen
    exact Path.spares_of_length (c := f.fill (leaf c (l ++ x :: r))) le_rfl hwf hlen

theorem Entries.value (h : Entries s os μ keys L (.place ⟨l,some (k,v),a⟩)) : Writable s ∧
    ∃ (m : Nat) (t : KeyTree m) (fs D : List Int) (nd : Int → Nat) (live : Finset (Int × Nat)) (ent : Int × Nat → DKey)
      (n : Nat) (f : KeyFrame n) (d : KeyTree n) (p : KeyPath (n + 1) m) (e : KeyEnt) (r after : List KeyEnt)
      (ps : List (Int × Nat)) (lvs rvs : List Int), Listed s t fs D os nd live ent μ ∧ t.inorder.length ≤ keys ∧
        e.key = k ∧ OnValue s t ⟨l,some (k,v),a⟩ live ent (fun e => μ e.key) f d p e r after ps lvs v rvs := by
  obtain ⟨hw,m,t,fs,D,nd,live,ent,hl,hlen,-,hp⟩ := h
  refine ⟨hw,m,t,fs,D,nd,live,ent,?_⟩
  rcases hp with (⟨f,p,hg⟩ | ⟨n,f,d,p,e,r,after,ps,lvs,w,rvs,hv⟩) | ⟨n,f,d,p,e,r,after,us,ws,lvs,rvs,q,w,hdel⟩
  · exact absurd (congrArg Cursor.cur hg.cursor) (Option.some_ne_none _)
  · obtain ⟨hk,rfl⟩ := Prod.mk.inj (Option.some.inj (congrArg Cursor.cur hv.cursor))
    exact ⟨n,f,d,p,e,r,after,ps,lvs,rvs,hl,hlen,hk.symm,hv⟩
  · exact absurd (congrArg Cursor.cur hdel.cursor) (Option.some_ne_none _)

theorem OnValue.clear (h : OnValue s t c live ent vals f d p e r after ps lvs v rvs) :
    OnValue s.clear t c live ent vals f d p e r after ps lvs v rvs :=
  ⟨h.plug,⟨h.onKey.blk,h.onKey.pos,h.onKey.stack,h.onKey.exct,h.onKey.ents⟩,h.lfkey,h.right,h.chained,h.split,h.onDup,
    h.cursor⟩

-- `bdelky` of the selected entry takes that one out.
theorem Entries.ends_delete (hb : Sized) (hcap : 8 ≤ ZMXKEY) (h : Entries s os μ keys L (.place ⟨l,some (k,v),a⟩))
    (hfuel : 2 * keys + 3 ≤ FUEL) (hmends : (μ k).length = 1 → Mends s os μ k) :
    (exec (bdelky none) s).Ends (Refused s.ctx.super.scroot) fun r => r.1 = 0 ∧ SameRoot s r.2 ∧
      ∃ ν o, Entries r.2 os ν keys (l ++ a) o ∧
        (Frees s μ k ∧ o = .freed ∨ ¬ Frees s μ k ∧ o = .place ⟨l,none,a⟩) := by
  obtain ⟨hw,m,t,fs,D,nd,live,ent,n,f,d,p,e,r,after,ps,lvs,rvs,hl,hlen,rfl,hv⟩ := h.value
  have hwc : Writable s.clear := ⟨hw.isopen,hw.shared,hw.mode⟩
  have hclear : Listed s.clear t fs D os nd live ent μ := hl.withCtx rfl
  refine ends_modifyKey_none hw ((hv.clear.ends_bdelk1 hb hcap hclear hwc rfl (by omega) hlen fun hone =>
    (hmends hone).same rfl rfl).mono (fun _ _ h => h) fun r hr => ?_)
  obtain ⟨hsh,herr,hsame,o,ho,hfrees⟩ := hr
  exact ⟨hsh,herr,⟨hsame.root,hsame.misc⟩,_,o,ho,hfrees⟩

end Delete

section Update

variable {val : Int} {f : KeyFrame n} {d : KeyTree n} {p : KeyPath (n + 1) m}

theorem OnValue.exec_update (hb : Sized)
    (hv : OnValue s t c live ent (fun e => μ e.key) f d p e r after ps lvs v rvs) (hl : Listed s t fs D os nd live ent μ)
    (hw : Writable s) (herr : s.ctx.err.qerror = 0) (hlen : t.inorder.length ≤ keys) (hval : Fits val) :
    ∃ s', exec (bmodky s.ctx.lf.lfblk s.ctx.lf.lfpos val) s = .done ((), s') ∧ s'.ctx = s.ctx ∧ SameRoot s s' ∧
      Entries s' os (Function.update μ e.key (lvs ++ val :: rvs)) keys (c.before ++ (e.key,val) :: c.after)
        (.place ⟨c.before,some (e.key,val),c.after⟩) := by
  have hat := hv.atEntry
  have hnode := hat.node
  have hin := hat.inorder
  have hfits := hl.fits e.key
  have hvs : μ e.key = lvs ++ v :: rvs := hv.split
  have hc : Chained live ent e ps (lvs ++ v :: rvs) := hvs ▸ hv.chained
  have hsort := hin ▸ hl.formed.sorted
  obtain ⟨hleft,hright⟩ := items_update (μ := μ) hsort (lvs ++ val :: rvs)
  have hbefore : c.before = items (fun x => μ x.key) ((Path.step f p).left ++ d.inorder) ++ lvs.map (e.key, ·) := by
    rw [hv.cursor]
  have hafter : c.after = rvs.map (e.key, ·) ++ items (fun x => μ x.key) after := by rw [hv.cursor]
  obtain ⟨s2,live2,ent2,e2,hrun,hctx,ht⟩ := hl.whole.dups.exec_bmodky hb (hat.found hl herr) hv.onDup hval hc
  have hall : ∀ u ∈ lvs ++ val :: rvs, Fits u := fun u hu => by
    rw [List.perm_middle.mem_iff, List.mem_cons] at hu
    rcases hu with rfl | hu
    · exact hval
    · exact hfits u (by rw [hvs, List.perm_middle.mem_iff]; exact List.mem_cons_of_mem v hu)
  have hvals : Function.update μ e.key (lvs ++ val :: rvs) e2.key = lvs ++ val :: rvs := by rw [ht.key, Function.update_self]
  obtain ⟨f',hat2,hleft2⟩ := hat.turn (fun x => Function.update μ e.key (lvs ++ val :: rvs) x.key) ht.edit ht.key
    (hvals.symm ▸ ht.chained)
  have hw2 := ht.edit.writable hw
  have hin2 := hat2.inorder
  rw [hleft2] at hin2
  have hst := hat2.stands hvals (by rw [hctx]; exact hv.onKey.exct) (by rw [OnDup, hctx]; exact hv.onDup)
  rw [hleft2, hleft, hright, ht.key, ← hbefore, ← hafter] at hst
  rw [hv.onKey.blk, hv.onKey.pos]
  refine ⟨s2,hrun,hctx,ht.edit.sameRoot hl.whole.dups.root,hw2,m,_,fs,D,nd,live2,ent2,(hnode ▸ hl).turn (hnode ▸ ht) hall,?_,?_,
    Or.inl hst⟩
  · rw [hin2]
    rw [hin] at hlen
    simpa using hlen
  · rw [hin2, items_append, items_cons, hvals, ht.key, hleft, hright, hbefore, hafter]
    simp

-- `bupdky` of the selected entry gives that one another value.
theorem Entries.ends_update {E : Op → Disk → Prop} (hb : Sized) (h : Entries s os μ keys L (.place ⟨l,some (k,v),a⟩))
    (hval : Fits val) : (exec (bupdky none val) s).Ends E fun r => r.1 = 0 ∧ SameRoot s r.2 ∧
      ∃ ν, Entries r.2 os ν keys (l ++ (k,val) :: a) (.place ⟨l,some (k,val),a⟩) := by
  obtain ⟨hw,m,t,fs,D,nd,live,ent,n,f,d,p,e,r,after,ps,lvs,rvs,hl,hlen,rfl,hv⟩ := h.value
  have hwc : Writable s.clear := ⟨hw.isopen,hw.shared,hw.mode⟩
  have hclear : Listed s.clear t fs D os nd live ent μ := hl.withCtx rfl
  obtain ⟨s',hrun,hctx,hsame,hent⟩ := hv.clear.exec_update hb hclear hwc rfl hlen hval
  refine ends_modifyKey_none hw ?_
  simp only [exec_bind, exec_get, Prog.Outcome.bind_done, hrun, Prog.Outcome.ends_done]
  refine ⟨by rw [hctx]; exact hw.shared,by rw [hctx]; rfl,⟨hsame.root,hsame.misc⟩,_,hent⟩

end Update

-- The key last found has duplicates, and none of them is selected.
def Unchosen (s : St) : Prop :=
  s.ctx.lf.draddr = ZNULL ∧ ((s.disk.block s.ctx.lf.lfblk).keyblk s.ctx.lf.lfpos).dup ≠ ZNULL

-- A call on the last found entry.
inductive LastCall where
  | update (val : Int)
  | delete
deriving DecidableEq, Repr

namespace LastCall

def answer : LastCall → BT Int
  | update val => bupdky none val
  | delete => bdelky none

def Sound : LastCall → Prop
  | update val => Fits val
  | delete => True

-- What it leaves of the entry.
def left (k : Key) : LastCall → List Item
  | update val => [(k,val)]
  | delete => []

-- What a call needs: a selected entry is not a key as a whole, and one that is the only one of its key can be taken out;
-- an update with none selected finds no index, no block, or no duplicate to write to.
def Clear (s : St) (os : List Int) (μ : Key → List Int) : LastCall → Prop
  | update _ => if s.ctx.lf.lfexct then ¬ Unchosen s else s.ctx.lf.lfpos < 0 ∨ s.ctx.lf.lfblk = ZNULL ∨
      s.ctx.lf.draddr ≠ ZNULL ∧ (s.disk.block (cnvdraddr s.ctx.lf.draddr).1).btype ≠ ZDUP
  | delete => s.ctx.lf.lfexct = true → ¬ Unchosen s ∧ ((μ s.ctx.lf.lfkey).length = 1 → Mends s os μ s.ctx.lf.lfkey)

end LastCall

-- An error, and nothing else.
theorem Entries.failed (h : Entries s os μ keys L o) (hdisk : s'.disk = s.disk)
    (hctx : s'.ctx = { s.ctx with err := s'.ctx.err }) : Entries s' os μ keys L o := by
  obtain ⟨hw,m,t,fs,D,nd,live,ent,hl,hlen,hlist,hp⟩ := h
  have hsuper : s'.ctx.super = s.ctx.super := by rw [hctx]
  refine ⟨⟨?_,?_,?_⟩,m,t,fs,D,nd,live,ent,hl.same hdisk hsuper,hlen,hlist,hp.withCtx hdisk ?_ ?_ ?_⟩
  · rw [hctx]
    exact hw.isopen
  · rw [hctx]
    exact hw.shared
  · rw [hsuper]
    exact hw.mode
  · rw [hctx]
  · rw [hctx]
  · rw [hsuper]

section Exact

theorem Position.exact (hp : Position s t live ent vals o) (hx : s.ctx.lf.lfexct = true) (hne : ¬ Unchosen s)
    (hs : Shelf s t fs D os live ent vals) : ∃ l k v a, o = .place ⟨l,some (k,v),a⟩ := by
  cases o with
  | out =>
      have hlost : Lost s := hp
      rw [hlost.exct] at hx
      cases hx
  | place c =>
      rcases hp with (⟨f,p,hg⟩ | ⟨n,f,d,p,e,r,after,ps,lvs,w,rvs,hv⟩) | ⟨n,f,d,p,e,r,after,us,ws,lvs,rvs,q,w,hdel⟩
      · rw [hg.exct] at hx
        cases hx
      · exact ⟨_,_,_,_,congrArg Standing.place hv.cursor⟩
      · rw [hdel.exct] at hx
        cases hx
  | whole b vs a =>
      obtain ⟨n,f,d,p,e,r,after,ps,hp,-⟩ := hp
      refine absurd ⟨hp.draddr,?_⟩ hne
      obtain ⟨-,-,hent⟩ := hs.entry hp.plug hp.ents
      rw [hp.blk, hp.pos, hent]
      obtain ⟨-,-,-,hback,hl⟩ := hp.chained.resolve_left fun hnil => hp.dups hnil.1
      obtain ⟨us,q,hps⟩ := (List.eq_nil_or_concat' ps).resolve_left hp.dups
      rw [hback, hps, back_append]
      obtain ⟨w,nx,pv,hcell⟩ := (hps ▸ hl).exists_node (List.mem_append_right us (List.mem_singleton_self q))
      exact hs.legible.addr_ne_null hcell.1
  | freed =>
      obtain ⟨q,d,hq⟩ := hp
      rw [hq.exct] at hx
      cases hx
  | before =>
      have hbefore : BeforeRoot s := hp
      rw [hbefore.exct] at hx
      cases hx

-- `bdelky` asks for an exact match.
theorem exec_bdelk1_inexact (hx : s.ctx.lf.lfexct = false) (herr : s.ctx.err.qerror = 0) (key : Option Key) :
    exec (bdelk1 key) s = .done ((), { s with ctx.err := ⟨"BDELK1", QDELEX, .none⟩ }) := by
  simp [bdelk1, hx, herr]

-- `bupdky` does not; it fails where there is nothing to be written to.
theorem exec_bmodky_inexact (hp : Position s t live ent vals o) (hs : Shelf s t fs D os live ent vals)
    (hx : s.ctx.lf.lfexct = false) (herr : s.ctx.err.qerror = 0) {val : Int}
    (hclear : (LastCall.update val).Clear s os μ) : ∃ err : Err, err.qerror ≠ 0 ∧
      exec (bmodky s.ctx.lf.lfblk s.ctx.lf.lfpos val) s = .done ((), { s with ctx.err := err }) := by
  have hexct : ∀ {b : Bool}, s.ctx.lf.lfexct = b → b = false := fun h => h.symm.trans hx
  by_cases hpos : ZMXKEY ≤ s.ctx.lf.lfpos ∨ s.ctx.lf.lfpos < 0
  · have hcode : QLOCTB ≠ 0 := by decide
    exact ⟨⟨"BMODKY",QLOCTB,.num s.ctx.lf.lfpos⟩,hcode,by simp [bmodky, hpos, herr]⟩
  rw [LastCall.Clear, if_neg (by rw [hx]; exact Bool.false_ne_true)] at hclear
  replace hclear := hclear.resolve_left fun hneg => hpos (Or.inr hneg)
  by_cases hdr : s.ctx.lf.draddr = ZNULL
  · have hnull : s.ctx.lf.lfblk = ZNULL := hclear.resolve_right fun h => h.1 hdr
    have hread : s.disk.read ZNULL = none := if_neg fun h => absurd h.1 (by decide)
    have hcode : QRDBLK ≠ 0 := by decide
    exact ⟨⟨"BMODKY",QRDBLK,.num s.ctx.lf.lfblk⟩,hcode,by simp [bmodky, hpos, herr, btdupupd, hdr, hnull, hread]⟩
  cases o with
  | out => exact absurd (show Lost s from hp).draddr hdr
  | place c =>
      rcases hp with (⟨f,p,hg⟩ | ⟨n,f,d,p,e,r,after,ps,lvs,w,rvs,hv⟩) | ⟨n,f,d,p,e,r,after,us,ws,lvs,rvs,q,w,hdel⟩
      · exact absurd hg.draddr hdr
      · exact absurd (hexct hv.onKey.exct) (by decide)
      · have hread := (hdel.stale.left.resolve_left fun h => h.1).2.1
        rcases hclear with hnull | ⟨-,htype⟩
        · exact absurd hnull (hdel.blk_ne_null hs)
        · rw [hdel.draddr, hdel.stale.cnvdraddr_addr] at htype
          exact absurd hread htype
  | whole b vs a =>
      obtain ⟨n,f,d,p,e,r,after,ps,hp,-⟩ := hp
      exact absurd hp.draddr hdr
  | freed =>
      obtain ⟨q,d,hq⟩ := hp
      have hread := hq.stale.exec_freed herr
      have hcode : QNOTDUP ≠ 0 := by decide
      have hstat : QNOTDUP ≠ ZNULL := by decide
      refine ⟨⟨"GETDKEY",QNOTDUP,.num (addr q)⟩,hcode,?_⟩
      rw [hq.draddr] at hdr
      simp [bmodky, hpos, btdupupd, hq.draddr, hdr, hread, hstat]
  | before => exact absurd (show BeforeRoot s from hp).draddr hdr

end Exact

theorem Entries.selected (h : Entries s os μ keys L o) (hx : s.ctx.lf.lfexct = true) (hne : ¬ Unchosen s) :
    ∃ l v a, o = .place ⟨l,some (s.ctx.lf.lfkey,v),a⟩ ∧ L = l ++ (s.ctx.lf.lfkey,v) :: a := by
  obtain ⟨hw,m,t,fs,D,nd,live,ent,hl,hlen,hlist,hp⟩ := h
  obtain ⟨l,k,v,a,rfl⟩ := hp.exact hx hne (hl.shelf hw.isopen)
  have h : Entries s os μ keys L (.place ⟨l,some (k,v),a⟩) := ⟨hw,m,t,fs,D,nd,live,ent,hl,hlen,hlist,hp⟩
  have hL : L = l ++ (k,v) :: a := by simpa using h.list_eq
  obtain ⟨-,m,t,fs,D,nd,live,ent,n,f,d,p,e,r,after,ps,lvs,rvs,-,-,rfl,hv⟩ := h.value
  rw [hv.lfkey]
  exact ⟨l,v,a,rfl,hL⟩

-- What a call on the last found entry makes of the entries `L`: one of them is selected, and is the only one that changes,
-- or the call fails and leaves everything as it is.
def LastCall.Answers (c : LastCall) (s : St) (os : List Int) (μ : Key → List Int) (keys : Nat) (L : List Item)
    (o : Standing) (r : Int × St) : Prop :=
  if s.ctx.lf.lfexct then ∃ l k v a, o = .place ⟨l,some (k,v),a⟩ ∧ L = l ++ (k,v) :: a ∧ r.1 = 0 ∧
    ∃ ν o', Entries r.2 os ν keys (l ++ c.left k ++ a) o'
  else r.1 ≠ 0 ∧ r.2.disk = s.disk ∧ Entries r.2 os μ keys L o

theorem Entries.ends_last (hb : Sized) (hcap : 8 ≤ ZMXKEY) (h : Entries s os μ keys L o) (hfuel : 2 * keys + 3 ≤ FUEL)
    (c : LastCall) (hc : c.Sound) (hclear : c.Clear s os μ) :
    (exec c.answer s).Ends (Refused s.ctx.super.scroot) (c.Answers s os μ keys L o) := by
  obtain ⟨hw,m,t,fs,D,nd,live,ent,hl,hlen,hlist,hp⟩ := h
  have hs := hl.shelf hw.isopen
  have h : Entries s os μ keys L o := ⟨hw,m,t,fs,D,nd,live,ent,hl,hlen,hlist,hp⟩
  cases hx : s.ctx.lf.lfexct with
  | true =>
      have hsel : ¬ Unchosen s := by
        cases c with
        | update val =>
            rw [LastCall.Clear, if_pos hx] at hclear
            exact hclear
        | delete => exact (hclear hx).1
      obtain ⟨l,v,a,rfl,hlist⟩ := h.selected hx hsel
      cases c with
      | update val =>
          refine (h.ends_update hb hc).mono (fun _ _ h => h) fun r hr => ?_
          obtain ⟨hcode,-,ν,hν⟩ := hr
          rw [LastCall.Answers, if_pos hx]
          exact ⟨l,_,v,a,rfl,hlist,hcode,ν,_,by simpa [LastCall.left] using hν⟩
      | delete =>
          refine (h.ends_delete hb hcap hfuel (hclear hx).2).mono (fun _ _ h => h) fun r hr => ?_
          obtain ⟨hcode,-,ν,o',hν,-⟩ := hr
          rw [LastCall.Answers, if_pos hx]
          exact ⟨l,_,v,a,rfl,hlist,hcode,ν,o',by simpa [LastCall.left] using hν⟩
  | false =>
      have hfail : ∃ err : Err, err.qerror ≠ 0 ∧ ∀ {E : Op → Disk → Prop} {Q : Int × St → Prop},
          Q (err.qerror, { s.clear with ctx.err := err }) → (exec c.answer s).Ends E Q := by
        cases c with
        | update val =>
            have hsame : (LastCall.update val).Clear s.clear os μ := hclear
            have hplace : Position s.clear t live ent (fun e => μ e.key) o := hp.withCtx rfl rfl rfl rfl
            obtain ⟨err,hcode,hrun⟩ := exec_bmodky_inexact hplace (hs.same rfl rfl rfl) hx rfl hsame
            refine ⟨err,hcode,fun hq => ends_modifyKey_none hw ?_⟩
            simp only [exec_bind, exec_get, Prog.Outcome.bind_done, hrun, Prog.Outcome.ends_done]
            exact ⟨hw.shared,hq⟩
        | delete =>
            have hcode : QDELEX ≠ 0 := by decide
            refine ⟨⟨"BDELK1",QDELEX,.none⟩,hcode,fun hq => ends_modifyKey_none hw ?_⟩
            rw [exec_bdelk1_inexact (s := s.clear) hx rfl, Prog.Outcome.ends_done]
            exact ⟨hw.shared,hq⟩
      obtain ⟨err,hcode,hends⟩ := hfail
      refine hends ?_
      rw [LastCall.Answers, if_neg (by rw [hx]; exact Bool.false_ne_true)]
      exact ⟨hcode,rfl,h.failed rfl rfl⟩

-- After every run of named calls, `btpos` and moves, a call on the last found entry changes that entry alone, and fails
-- where none is selected, as long as it meets neither a key as a whole nor, with none selected, something to write to.
theorem last_call_on_one (hb : Sized) (hcap : 8 ≤ ZMXKEY) (h : Selects s os μ keys o) (cs : List MixedCall) (c : LastCall)
    (hcs : ∀ c ∈ cs, c.Sound) (hc : c.Sound) (hfuel : 2 * (keys + cs.length) + 3 ≤ FUEL)
    (hmet : MixedCall.Met os (DupCall.dupsOf s) cs s μ) (hclear : ∀ r s', exec (MixedCall.answers cs) s = .done (r, s') →
      c.Clear s' os (MixedCall.valuesAfter (DupCall.dupsOf s) μ cs)) :
    (exec (MixedCall.answers cs) s).Ends (Refused s.ctx.super.scroot) fun r => ∃ L o',
      Entries r.2 os (MixedCall.valuesAfter (DupCall.dupsOf s) μ cs) (keys + cs.length) L o' ∧
        (exec c.answer r.2).Ends (Refused s.ctx.super.scroot)
          (c.Answers r.2 os (MixedCall.valuesAfter (DupCall.dupsOf s) μ cs) (keys + cs.length) L o') := by
  refine (MixedCall.ends_answers hb hcap h cs hcs hfuel hmet).self.mono (fun _ _ h => h) ?_
  rintro ⟨r,s1⟩ ⟨hdone,o',ho'⟩
  obtain ⟨L,hL⟩ := ho'.selects.entries
  have hlast := hL.ends_last hb hcap hfuel c hc (hclear r s1 hdone)
  rw [ho'.same.root] at hlast
  exact ⟨L,o',hL,hlast⟩

end Calls

section Run

attribute [local instance] dupsBuild

attribute [local irreducible] exec

-- The selected key, of one value, is in a leaf of a tree of two levels.
def currentTurns : List MixedCall :=
  [.named (.insert [65] 7), .named (.insert [66] 5), .named (.insert [65] 8)] ++
    (List.range 21).map (fun i => .named (.insert [Fin.ofNat 256 (67 + i)] i)) ++ [.named (.find [66]), .move .next]

theorem last_call_on_one_currentTurns : ∃ r r' L o', exec (MixedCall.answers currentTurns) St.freshWords = .done r ∧
    exec LastCall.delete.answer r.2 = .done r' ∧ r'.1 = 0 ∧ r.2.ctx.lf.lfexct = true ∧
      LastCall.delete.Answers r.2 [0] (MixedCall.valuesAfter true (fun _ => []) currentTurns) 26 L o' r' := by
  have hmet : MixedCall.Met [0] true currentTurns St.freshWords fun _ => [] :=
    MixedCall.met_of_starts _ few_none (by decide +kernel) (by decide +kernel) (by decide +kernel)
  have hrun : ((exec (MixedCall.answers currentTurns) St.freshWords).result.bind fun r =>
      (exec LastCall.delete.answer r.2).result.map fun r' => (r'.1, r.2.ctx.lf.lfexct, r.2.ctx.lf.draddr,
        ((r.2.disk.block r.2.ctx.lf.lfblk).keyblk r.2.ctx.lf.lfpos).dup)) = some (0, true, ZNULL, ZNULL) := by
    decide +kernel
  obtain ⟨r,hr,hrun⟩ := Option.bind_eq_some_iff.1 hrun
  obtain ⟨r',hr',hval⟩ := Option.map_eq_some_iff.1 hrun
  have hr := Prog.Outcome.result_eq_some.1 hr
  have hr' := Prog.Outcome.result_eq_some.1 hr'
  simp only [Prod.mk.injEq] at hval
  obtain ⟨hcode,hexct,-,hdup⟩ := hval
  have hfew : Few (fun k => ((fun _ => [] : Key → List Int) k).head?) 0 := few_none
  have h := last_call_on_one sized_dups (by decide) selects_freshWords currentTurns .delete (by decide +kernel) trivial
    (by decide +kernel) hmet fun r1 s1 hdone => by
      obtain rfl : r = (r1, s1) := Prog.Outcome.done.inj (hr.symm.trans hdone)
      exact fun _ => ⟨fun hno => hno.2 hdup,fun _ => Mends.of_few ((hfew.valuesAfter true currentTurns).mono (by decide +kernel)) (by decide)⟩
  rw [hr, Prog.Outcome.ends_done] at h
  obtain ⟨L,o',-,h⟩ := h
  rw [hr', Prog.Outcome.ends_done] at h
  exact ⟨r,r',L,o',hr,hr',hcode,hexct,h⟩

-- With none selected, `bupdky` writes to the entry behind the gap; after a second value has come to the selected key,
-- `bdelky` takes out both.
theorem last_call_elsewhere : Selects St.freshWords [0] (fun _ => []) 0 .out ∧
    (∃ r r', exec (MixedCall.answers [.named (.insert [65] 7),.named (.find [64])]) St.freshWords = .done r ∧
      exec (LastCall.update 9).answer r.2 = .done r' ∧ r'.1 = 0 ∧
        (exec (bfndky [65]) r'.2).result.map Prod.fst = some (0, 9) ∧
          ∀ μ keys L o, ¬ (LastCall.update 9).Answers r.2 [0] μ keys L o r') ∧
      (exec (do
        let _ ← MixedCall.answers [.named (.insert [65] 7),.named (.find [65]),.named (.insert [65] 8)]
        let code ← LastCall.delete.answer
        let r ← bfndky [65]
        return (code, r.1)) St.freshWords).result.map Prod.fst = some (0, QNOKEY) := by
  refine ⟨selects_freshWords,?_,by decide +kernel⟩
  have hrun : ((exec (MixedCall.answers [.named (.insert [65] 7),.named (.find [64])]) St.freshWords).result.bind fun r =>
      (exec (LastCall.update 9).answer r.2).result.map fun r' => (r'.1, r.2.ctx.lf.lfexct,
        (exec (bfndky [65]) r'.2).result.map Prod.fst)) = some (0, false, some (0, 9)) := by
    decide +kernel
  obtain ⟨r,hr,hrun⟩ := Option.bind_eq_some_iff.1 hrun
  obtain ⟨r',hr',hval⟩ := Option.map_eq_some_iff.1 hrun
  simp only [Prod.mk.injEq] at hval
  obtain ⟨hcode,hexct,hfind⟩ := hval
  refine ⟨r,r',Prog.Outcome.result_eq_some.1 hr,Prog.Outcome.result_eq_some.1 hr',hcode,hfind,fun μ keys L o hans => ?_⟩
  rw [LastCall.Answers, if_neg (by rw [hexct]; exact Bool.false_ne_true)] at hans
  exact hans.1 hcode

end Run

end Btlib
