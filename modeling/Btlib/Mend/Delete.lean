import Btlib.Index.Refine
import Btlib.Mend.Reach

namespace Btlib

open Multiway

variable [Build] {n m m' : Nat} {s s' : St} {fs fs' os : List Int} {blk c : Int} {l r es : List KeyEnt} {e x y : KeyEnt}
  {key : Key} {μ : Key → Option Int}

-- A step that takes one entry out of the tree.
structure Gone (s s' : St) (T : KeyTree m) (e : KeyEnt) (t : KeyTree m') (fs fs' os : List Int) : Prop where
  index : Index s' t fs' os
  wf : t.RootWf ZMXKEY
  pos : 0 < m'
  drop : ∃ A B, T.inorder = A ++ e :: B ∧ t.inorder = A ++ B
  undisturbed : Undisturbed s s' os
  blocks : (fs' ++ t.ids).Perm (fs ++ T.ids)

section Entries

omit [Build] in
theorem mem_inorder_entry {p : KeyPath (n + 1) m} {ks : List (KeyTree n)} :
    e ∈ (p.plug (BTree.node blk (l ++ e :: r) ks)).inorder := by
  rw [p.inorder_plug]
  refine List.mem_append_left _ (List.mem_append_right _ (mem_weave.2 (Or.inr ?_)))
  exact List.mem_append_right _ List.mem_cons_self

omit [Build] in
theorem entries_delete {A B : List KeyEnt} (hL : Sorted KeyEnt.key (A ++ e :: B))
    (hμ : ∀ k v, μ k = some v ↔ ⟨k,v,ZNULL⟩ ∈ A ++ e :: B) (k : Key) (v : Int) :
    Function.update μ e.key none k = some v ↔ ⟨k,v,ZNULL⟩ ∈ A ++ B := by
  rcases eq_or_ne k e.key with rfl | hne
  · rw [Function.update_self]
    refine iff_of_false (by simp) fun hmem => ?_
    rcases List.mem_append.1 hmem with h | h
    · have hlt : (⟨e.key,v,ZNULL⟩ : KeyEnt).key < e.key := hL.lt h List.mem_cons_self
      exact lt_irrefl _ hlt
    · have hlt : e.key < (⟨e.key,v,ZNULL⟩ : KeyEnt).key := (List.pairwise_cons.1 hL.right).1 _ h
      exact lt_irrefl _ hlt
  · rw [Function.update_of_ne hne, hμ, List.perm_middle.mem_iff, List.mem_cons]
    refine or_iff_right fun heq => hne ?_
    rw [← heq]

end Entries

theorem WellFormed.gone {T : KeyTree m} {t : KeyTree m'} (h : WellFormed s T fs os) (hg : Gone s s' T e t fs fs' os) :
    WellFormed s' t fs' os ∧ t.inorder.length + 1 = T.inorder.length := by
  obtain ⟨A,B,hT,ht⟩ := hg.drop
  refine ⟨⟨hg.index,hg.wf,hg.pos,?_,?_⟩,?_⟩
  · rw [ht]
    exact (hT ▸ h.sorted).remove
  · rw [ht]
    refine fun y hy => h.short y ?_
    rw [hT, List.perm_middle.mem_iff]
    exact List.mem_cons_of_mem e hy
  · rw [hT, ht]
    simp only [List.length_append, List.length_cons]
    omega

-- What `takeOut` does to the tree when the leaf with the entry is at hand.
theorem AtLeaf.gone {q : KeyPath 1 m} (h : AtLeaf s q c l x r fs os) (hcap : 8 ≤ ZMXKEY) (hE : SiblingRoom q (l ++ r)) :
    ∃ s' m' fs', ∃ t : KeyTree m', exec takeOut s = .done ((), s') ∧
      Gone s s' (q.plug (leaf c (l ++ x :: r))) x t fs fs' os := by
  obtain ⟨s',m',fs',t,hrun,hs⟩ := h.exec_takeOut hcap hE
  refine ⟨s',m',fs',t,hrun,hs.index,hs.wf,hs.pos,⟨q.left ++ l,r ++ q.right,?_,?_⟩,hs.undisturbed,?_⟩
  · rw [inorder_plug_leaf]
    simp
  · rw [hs.inorder, inorder_plug_leaf]
    simp
  · exact hs.blocks.trans ((ids_plug_leaf q c).append_left fs)

-- A tree without one entry of `T`, when the call that took it out has come to its end: every block of before is in
-- it or free.
structure Without (s s' : St) (T : KeyTree m) (e : KeyEnt) (t : KeyTree m') (fs fs' os : List Int) : Prop where
  formed : WellFormed s' t fs' os
  drop : ∃ A B, T.inorder = A ++ e :: B ∧ t.inorder = A ++ B
  keeps : Keeps s s' os
  err : s'.ctx.err.qerror = 0
  lfkey : s'.ctx.lf.lfkey = e.key
  blocks : ∀ c ∈ fs ++ T.ids, c ∈ fs' ++ t.ids
  reaches : s.disk.Reaches s'.disk
  gap : ∃ (f : KeyFrame 0) (p : KeyPath 1 m'), t = (Path.step f p).plug BTree.nil ∧ AtGap s' f p e.key

theorem WellFormed.ends_after {T : KeyTree m} {t : KeyTree m'} (h : WellFormed s T fs os)
    (hg : Gone s s' T e t fs fs' os) (hcap : 3 ≤ ZMXKEY) (hw : Writable s) (hlf : s.ctx.lf.lfkey = e.key)
    (herr : s.ctx.err.qerror = 0) (hfuel : 2 * T.inorder.length + 3 ≤ FUEL) :
    (exec lookAgain s').Ends (Refused s.ctx.super.scroot) fun a =>
      ∃ (m'' : Nat) (t' : KeyTree m'') (fs'' : List Int), Without s a.2 T e t' fs fs'' os := by
  obtain ⟨h',hlen⟩ := h.gone hg
  obtain ⟨A,B,hT,ht⟩ := hg.drop
  have hsort := hT ▸ h.sorted
  have he : e ∈ T.inorder := hT ▸ List.mem_append_right A List.mem_cons_self
  have hu := hg.undisturbed
  have hw' := hw.keeps hu.keeps
  have hkey : keycpy s'.ctx.lf.lfkey = e.key := by rw [hu.lfkey, hlf, keycpy_eq (h.short e he)]
  have herr' : s'.ctx.err.qerror = 0 := by rw [hu.err, herr]
  have hroot : s'.ctx.super.scroot = s.ctx.super.scroot := hu.keeps.root
  have hcond : ¬ s'.ctx.shared = true ∧ s'.ctx.err.qerror = 0 := ⟨by simp [hw'.shared],herr'⟩
  unfold lookAgain
  rw [exec_then (exec_get s')]
  simp only [if_pos hcond]
  rw [exec_bind]
  rw [← hroot, Prog.Outcome.ends_bind]
  refine ends_bfndky hcap hw'.isopen hw'.shared h'.pos h'.index h'.wf h'.sorted (by omega) ?_ ?_
  · -- the entry with the key was the one that is gone
    intro n m p blk l x r ks s1 fs1 hspot hx _
    refine absurd (hx.trans hkey) ?_
    have hmem : x ∈ A ++ B := by
      rw [← ht, ← hspot.inorder]
      exact mem_inorder_entry
    rcases List.mem_append.1 hmem with hA | hB
    · exact (hsort.lt hA List.mem_cons_self).ne
    · exact ((List.pairwise_cons.1 hsort.right).1 x hB).ne'
  · intro m1 f p s1 fs1 v hspot hat
    simp only [if_true, exec_bterr0, Prog.Outcome.ends_done]
    refine ⟨_,_,_,⟨(h'.ofSpot hspot).withCtx rfl,⟨A,B,hT,hspot.inorder.trans ht⟩,?_,rfl,?_,fun c hc => ?_,
      (Disk.Reaches.of_size hu.size).trans hspot.reaches,f,p,rfl,hkey ▸ hat.lf,hat.stack,hkey ▸ hat.before,hkey ▸ hat.after,
      hat.room⟩⟩
    · exact hu.keeps.trans (hspot.keeps.clear.withCtx rfl rfl rfl rfl)
    · simp only [hat.lf, hkey]
    · exact hspot.blocks c ((hg.blocks.mem_iff).2 hc)

omit [Build] in
theorem Located.keyent {p : KeyPath (n + 1) m} (h : Located s p blk l e) (ke : KeyEnt) :
    Located { s with ctx.keyent := ke } p blk l e := ⟨h.lfkey,h.lfblk,h.lfpos,h.stack,h.depth⟩

-- `bdelk1Key` up to the place where an entry of an inner node is replaced.
theorem Located.exec_bdelk1Key {p : KeyPath (n + 1) m} {ls : List Int} (hat : Located s p blk l e) (hblk : s.disk.Has blk)
    (hshow : (s.disk.block blk).Shows (l ++ e :: r) ls) (hkey : e.key.length ≤ 31) {k : Option Key} (hk : ∀ key ∈ k, key = e.key) :
    ∃ o : Srh,
      o.link1 = (s.disk.block blk).lnkblk l.length ∧ o.link2 = (s.disk.block blk).lnkblk (l.length + 1) ∧
      exec (bdelk1Key k) s = exec (do
        let ok ← if o.link1 ≠ ZNULL then replaceByLast blk l.length o else pure true
        if ok then bdelk1Leaf) { s with ctx.keyent := e } := by
  have hkeyblk : (s.disk.block blk).keyblk l.length = e := by
    have hk := (Reads.append_iff.1 hshow.keys).2.1
    rwa [zero_add] at hk
  have hlt : (l.length : Int) < (s.disk.block blk).nkeys := by
    rw [hshow.nkeys]
    simp only [List.length_append, List.length_cons]
    omega
  have hsrh := exec_bsrhbk_loc hblk { loc := l.length } (Int.natCast_nonneg _) hlt
  simp only [hkeyblk, keycpy_eq hkey] at hsrh
  have hsame : (k.any fun key => decide ((0 : Int) ≠ 0 ∨ strcmp e.key key ≠ 0)) = false := by
    cases k with
    | none => rfl
    | some key => simp [hk key rfl, strcmp_eq_zero_iff.2]
  generalize (s.disk.block blk).lnkblk l.length = u, (s.disk.block blk).lnkblk (l.length + 1) = v at hsrh ⊢
  refine ⟨{ key := e.key, loc := l.length, val := e.val, link1 := u, link2 := v, result := 0 },rfl,rfl,?_⟩
  unfold bdelk1Key
  rw [exec_then (exec_get s)]
  simp only [hat.lfblk, hat.lfpos]
  rw [exec_then hsrh]
  simp only [hsame, Bool.false_eq_true, if_false]

-- The leaf that gives up an entry when `e` goes: `e` itself, or the one in front of it, which takes its place.
def Yields (T : KeyTree m) (e : KeyEnt) (q : KeyPath 1 m) (c : Int) (l : List KeyEnt) (x : KeyEnt) (r : List KeyEnt) : Prop :=
  T = q.plug (leaf c (l ++ x :: r)) ∧ (x = e ∨ r = [] ∧ ∃ B, q.right = e :: B)

-- What follows the opening of `bdelk1Key`, from a leaf or by way of the predecessor of an entry of an inner node.
theorem Located.ends_drop {p : KeyPath (n + 1) m} {ks : List (KeyTree n)} {o : Srh} (hat : Located s p blk l e)
    (h : WellFormed s (p.plug (BTree.node blk (l ++ e :: r) ks)) fs os) (hw : Writable s) (hcap : 8 ≤ ZMXKEY)
    (hsib : ∀ q c l' x r', Yields (p.plug (BTree.node blk (l ++ e :: r) ks)) e q c l' x r' →
      (Room ZMXKEY p ∧ (l ++ e :: r).length ≠ ZMXKEY → q.Uncut ZMXKEY sp) → SiblingRoom q (l' ++ r'))
    (herr : s.ctx.err.qerror = 0) (hfuel : 2 * (p.plug (BTree.node blk (l ++ e :: r) ks)).inorder.length + 3 ≤ FUEL)
    (ho1 : o.link1 = (s.disk.block blk).lnkblk l.length) (ho2 : o.link2 = (s.disk.block blk).lnkblk (l.length + 1)) :
    (exec (do
        let ok ← if o.link1 ≠ ZNULL then replaceByLast blk l.length o else pure true
        if ok then bdelk1Leaf) s).Ends (Refused s.ctx.super.scroot) fun a =>
      ∃ (m' : Nat) (t : KeyTree m') (fs' : List Int),
        Without s a.2 (p.plug (BTree.node blk (l ++ e :: r) ks)) e t fs fs' os := by
  have hht : m ≤ FUEL := by
    have h1 := BTree.height_le_length_ids h.wf
    have h2 := BTree.length_ids_le_succ h.wf
    omega
  cases n with
  | zero =>
      -- an entry of a leaf
      obtain ⟨hleaf,hat1⟩ := hat.atLeaf h.index h.wf h.sorted hht
      rw [hleaf] at h hsib hfuel ⊢
      obtain ⟨s1,m',fs1,t,hrun,hgone⟩ := hat1.gone hcap (hsib p blk l e r ⟨rfl,Or.inl rfl⟩ fun hroom => hroom.1.uncut)
      have hlink : o.link1 = ZNULL := by
        rw [ho1]
        refine (bare_of_holds ((holds_plug_iff p _).1 h.index.holds).2 (by simp)).lnkblk (Int.natCast_nonneg _) ?_
        simp only [List.length_append, List.length_cons]
        omega
      simp only [hlink, ne_eq, not_true_eq_false, if_false, pure_bind, if_true]
      rw [bdelk1Leaf_eq, exec_then hrun]
      exact h.ends_after hgone (by omega) hw hat.lfkey herr hfuel
  | succ n =>
      obtain ⟨-,-,hks,-⟩ := BTree.wf_node.1 ((p.rootWf_plug_iff _).1 h.wf).2
      obtain ⟨lk,k,rk,rfl,hl,hr⟩ := split_list (hks.trans (show (l ++ e :: r).length + 1 =
        l.length + ((e :: r).length + 1) by rw [List.length_append, Nat.add_assoc]))
      have hmid : Index s ((Path.step ⟨blk,l,lk,e :: r,rk,hl,hr⟩ p).plug k) fs os := h.index
      have hlink : o.link1 ≠ ZNULL := by
        rw [ho1, ((holds_plug_iff _ _).1 hmid.holds).1.1.lnkblk (by simp [Frame.size])]
        exact (hmid.has (Index.mem_plug.2 (Or.inl Index.link_mem))).ne_null
      rw [if_pos hlink]
      rw [exec_bind]
      refine Prog.Outcome.Ends.bind (hat.ends_replaceByLast hmid h.wf h.sorted hht (by omega) ho1 ho2) ?_
      rintro ⟨ok,s1⟩ ⟨hok,q,c,l',x,B,hb,hix,hblk,hpos,hstk,hst,hm,huncut⟩
      simp only at hok hix hblk hpos hstk hst
      subst hok
      simp only [if_true]
      -- the predecessor is the last entry of its leaf
      have hsib : SiblingRoom q (l' ++ []) := hsib q c l' x [] ⟨hb.tree,Or.inr ⟨rfl,B,hb.right⟩⟩ huncut
      have hat1 := hb.atLeaf h.sorted h.wf hix hblk hpos hstk hm hht
      obtain ⟨s2,m',fs2,t,hrun,hset⟩ := hat1.exec_takeOut hcap hsib.image
      have hgone : Gone s s2 (p.plug (Frame.fill ⟨blk,l,lk,e :: r,rk,hl,hr⟩ k)) e t fs fs2 os := by
        refine ⟨hset.index,hset.wf,hset.pos,⟨_,_,hb.inorder,?_⟩,hst.trans hset.undisturbed,?_⟩
        · rw [hset.inorder, List.append_nil, hb.inorder_image h.sorted]
        · refine hset.blocks.trans (List.Perm.append_left fs ?_)
          have hids := congrArg BTree.ids (hb.image h.sorted)
          rw [BTree.ids_image] at hids
          rw [hids]
          exact ids_plug_leaf _ c
      rw [bdelk1Leaf_eq, exec_then hrun]
      exact h.ends_after hgone (by omega) hw hat.lfkey herr hfuel

theorem Located.ends_bdelk1Key {p : KeyPath (n + 1) m} {ks : List (KeyTree n)} (hat : Located s p blk l e)
    (h : WellFormed s (p.plug (BTree.node blk (l ++ e :: r) ks)) fs os) (hw : Writable s) (hcap : 8 ≤ ZMXKEY)
    (hsib : ∀ q c l' x r', Yields (p.plug (BTree.node blk (l ++ e :: r) ks)) e q c l' x r' →
      (Room ZMXKEY p ∧ (l ++ e :: r).length ≠ ZMXKEY → q.Uncut ZMXKEY sp) → SiblingRoom q (l' ++ r'))
    (herr : s.ctx.err.qerror = 0) (hfuel : 2 * (p.plug (BTree.node blk (l ++ e :: r) ks)).inorder.length + 3 ≤ FUEL)
    {k : Option Key} (hk : ∀ key ∈ k, key = e.key) :
    (exec (bdelk1Key k) s).Ends (Refused s.ctx.super.scroot) fun a =>
      ∃ (m' : Nat) (t : KeyTree m') (fs' : List Int),
        Without s a.2 (p.plug (BTree.node blk (l ++ e :: r) ks)) e t fs fs' os := by
  have hblk : s.disk.Has blk := h.index.has (Index.mem_plug.2 (Or.inl List.mem_cons_self))
  have hshow := (holds_node.1 ((holds_plug_iff p _).1 h.index.holds).2).1
  obtain ⟨o,ho1,ho2,hopen⟩ := hat.exec_bdelk1Key hblk hshow (h.short e mem_inorder_entry) hk
  rw [hopen]
  have hw1 : Writable { s with ctx.keyent := e } := ⟨hw.isopen,hw.shared,hw.mode⟩
  refine ((hat.keyent e).ends_drop (h.withCtx rfl) hw1 hcap hsib herr hfuel ho1 ho2).mono (fun _ _ h => h) fun a ha => ?_
  obtain ⟨m',t,fs',hout⟩ := ha
  have hk : Keeps s { s with ctx.keyent := e } os := (Keeps.refl s os).withCtx rfl rfl rfl rfl
  exact ⟨m',t,fs',hout.formed,hout.drop,hk.trans hout.keeps,hout.err,hout.lfkey,hout.blocks,hout.reaches,hout.gap⟩

-- Where the search has come to the entry, the nodes above it are not full.
theorem Aimed.ends_bdelk1Key {p : KeyPath (n + 1) m} {ks : List (KeyTree n)} (hat : Aimed s p blk l e r)
    (h : WellFormed s (p.plug (BTree.node blk (l ++ e :: r) ks)) fs os) (hw : Writable s) (hcap : 8 ≤ ZMXKEY)
    (hroom : RoomFor e.key (p.plug (BTree.node blk (l ++ e :: r) ks))) (herr : s.ctx.err.qerror = 0)
    (hfuel : 2 * (p.plug (BTree.node blk (l ++ e :: r) ks)).inorder.length + 3 ≤ FUEL) :
    (exec (bdelk1Key (some e.key)) s).Ends (Refused s.ctx.super.scroot) fun a =>
      ∃ (m' : Nat) (t : KeyTree m') (fs' : List Int),
        Without s a.2 (p.plug (BTree.node blk (l ++ e :: r) ks)) e t fs fs' os := by
  refine hat.toLocated.ends_bdelk1Key h hw hcap (fun q c l' x r' hy huncut => ?_) herr hfuel fun key hk =>
    (Option.some.inj hk).symm
  obtain ⟨hT,hx⟩ := hy
  have hsort := h.sorted
  rw [hT] at hroom hsort
  rw [inorder_plug_leaf] at hsort
  refine hroom.siblingRoom (fun y hy => ?_) (fun y hy => ?_) (huncut (hat.room hw.mode))
  · rcases hx with rfl | ⟨-,B,hB⟩
    · exact hsort.left.lt hy (List.mem_append_right _ List.mem_cons_self)
    · exact hsort.lt (List.mem_append_left _ hy) (hB ▸ List.mem_cons_self)
  · rcases hx with rfl | ⟨-,B,hB⟩
    · exact (hsort.lt (List.mem_append_right _ (List.mem_append_right _ List.mem_cons_self)) hy).le
    · rw [hB] at hy hsort
      rcases List.mem_cons.1 hy with rfl | hy
      · exact le_refl _
      · exact ((List.pairwise_cons.1 hsort.right).1 y hy).le

theorem AtKey.exec_bdelk1 {p : KeyPath (n + 1) m} (hat : AtKey s p blk l e r) (key : Key) :
    exec (bdelk1 (some key)) s = exec (bdelk1Key (some key)) s := by
  have hdup : exec btdeldup s = .done (ZNULL, s) := by
    unfold btdeldup
    rw [exec_then (exec_get s)]
    simp only [hat.draddr, if_true, exec_pure]
  unfold bdelk1
  rw [exec_then (exec_get s)]
  simp only [hat.exct, not_true_eq_false, if_false]
  rw [exec_then hdup]
  simp only [if_true]

-- `bfndky` on a root without duplicates, as one state after it.
theorem Plain.ends_bfndky {t : KeyTree n} (h : Plain s t fs os μ) (hcap : 3 ≤ ZMXKEY) (hw : Writable s)
    (hkey : key.length ≤ 31) (hfuel : 2 * t.inorder.length + 3 ≤ FUEL) :
    (exec (bfndky key) s).Ends (Refused s.ctx.super.scroot) fun a =>
      (∃ v, a.1 = (0, v) ∧ ∃ (n m : Nat) (p : KeyPath (n + 1) m) (blk : Int) (l : List KeyEnt) (e : KeyEnt)
        (r : List KeyEnt) (ks : List (KeyTree n)) (fs' : List Int), e.key = key ∧ AtKey a.2 p blk l e r ∧
          Spot s.clear a.2 (p.plug (BTree.node blk (l ++ e :: r) ks)) fs' os ⟨t,fs,key⟩) ∨
      a.1.1 = QNOKEY ∧ μ key = none ∧ a.2.ctx.err.qerror = QNOKEY ∧ ∃ (m' : Nat) (t' : KeyTree m') (fs' : List Int),
        Plain a.2 t' fs' os μ ∧ Keeps s a.2 os ∧ t'.inorder = t.inorder ∧ ∀ c ∈ fs ++ t.ids, c ∈ fs' ++ t'.ids := by
  refine ends_bfndky_plain hcap hw h hkey hfuel ?_ ?_
  · intro n m p blk l e r ks s' fs' hspot he hat
    exact Or.inl ⟨e.val,rfl,n,m,p,blk,l,e,r,ks,fs',he,hat,hspot⟩
  · intro m f p s' fs' v hspot hat
    have h' := h.ofSpot hspot
    have hent := h'.entries
    rw [Path.inorder_plug, BTree.inorder_zero, List.append_nil] at hent
    refine Or.inr ⟨rfl,entries_missed hat.before hat.after hent,rfl,_,_,_,h'.withCtx rfl,?_,hspot.inorder,hspot.blocks⟩
    exact hspot.keeps.clear.withCtx rfl rfl rfl rfl

-- What a deletion leaves: a root with the entries of `ν`, and no block of before is lost.
structure Deleted (s s' : St) (t : KeyTree n) (fs os : List Int) (ν : Key → Option Int) (t' : KeyTree m) (fs' : List Int) :
    Prop where
  plain : Plain s' t' fs' os ν
  keeps : Keeps s s' os
  length : t'.inorder.length ≤ t.inorder.length
  blocks : ∀ c ∈ fs ++ t.ids, c ∈ fs' ++ t'.ids

theorem Deleted.leaves {t : KeyTree n} {t' : KeyTree m} (h : Deleted s s' t fs os μ t' fs') (hw : Writable s) :
    Leaves s os t.inorder.length μ s' := h.plain.leaves hw h.keeps h.length

theorem Plain.without {T : KeyTree m} {t : KeyTree m'} (h : Plain s T fs os μ) (ho : Without s s' T e t fs fs' os) :
    Deleted s s' T fs os (Function.update μ e.key none) t fs' := by
  obtain ⟨A,B,hT,ht⟩ := ho.drop
  have hf := ho.formed
  refine ⟨⟨hf.index,hf.wf,hf.pos,hf.sorted,hf.short,?_,?_,?_⟩,ho.keeps,?_,ho.blocks⟩
  · rw [ht]
    refine fun y hy => h.single y ?_
    rw [hT, List.perm_middle.mem_iff]
    exact List.mem_cons_of_mem e hy
  · rw [ho.keeps.root]
    exact ho.keeps.info.misc.trans h.nodups
  · rw [ht]
    exact entries_delete (hT ▸ h.sorted) (hT ▸ h.entries)
  · rw [hT, ht]
    simp only [List.length_append, List.length_cons]
    omega

-- `bdelky` takes the key out of a root, where that has room for it.
theorem ends_delete {t : KeyTree n} (hcap : 8 ≤ ZMXKEY) (hw : Writable s) (h : Plain s t fs os μ) (hkey : key.length ≤ 31)
    (hfuel : 2 * t.inorder.length + 3 ≤ FUEL) (hroom : μ key ≠ none → RoomFor key t) :
    (exec (bdelky (some key)) s).Ends (Refused s.ctx.super.scroot) fun a =>
      ∃ (m : Nat) (t' : KeyTree m) (fs' : List Int),
        (∃ w, μ key = some w) ∧ a.1 = 0 ∧ Deleted s a.2 t fs os (Function.update μ key none) t' fs' ∨
          μ key = none ∧ a.1 = QNOKEY ∧ Deleted s a.2 t fs os μ t' fs' := by
  have hclear : Plain s.clear t fs os μ := h.withCtx rfl
  have hwc : Writable s.clear := ⟨hw.isopen,hw.shared,hw.mode⟩
  have hshared : s.clear.ctx.shared = false := hw.shared
  rw [bdelky, modifyKey, exec_api hw.isopen, errOf, exec_bind]
  simp only [exec_bind, exec_get, Prog.Outcome.bind_done, exec_ite, within, enter, hshared, Bool.false_eq_true, if_false,
    exec_pure, if_true, findKey]
  rw [if_neg (not_not.2 (show s.clear.ctx.super.smode = 0 from hw.mode))]
  rw [Prog.Outcome.ends_bind, Prog.Outcome.ends_bind, Prog.Outcome.ends_bind, Prog.Outcome.ends_bind]
  refine (hclear.ends_bfndky (by omega) hwc hkey hfuel).mono (fun _ _ h => h) ?_
  rintro ⟨⟨code,v⟩,s1⟩ (⟨w,hw0,n,m,p,blk,l,e,r,ks,fs1,rfl,hat,hspot⟩ | ⟨hcode,hnone,herr,m',t',fs',hp,hk,hin,hblocks⟩)
  · simp only [Prod.mk.injEq] at hw0 hat hspot
    obtain ⟨rfl,rfl⟩ := hw0
    have hp := hclear.ofSpot hspot
    have hin : e ∈ (p.plug (BTree.node blk (l ++ e :: r) ks)).inorder := mem_inorder_entry
    have hw1 : Writable s1 := hw.keeps hspot.keeps.clear.clear
    have hlen : (p.plug (BTree.node blk (l ++ e :: r) ks)).inorder.length = t.inorder.length :=
      congrArg List.length hspot.inorder
    have herr : s1.ctx.err = ⟨"", 0, .none⟩ := hspot.err
    have hroot : s1.ctx.super.scroot = s.ctx.super.scroot := hspot.keeps.root
    have hsome : μ e.key = some e.val := by
      rw [hp.entries, ← hp.single e hin]
      exact hin
    have hroom' := hspot.roomy hcap (hroom (by simp [hsome]))
    simp only [Prog.Outcome.ends_done, if_true]
    rw [hat.exec_bdelk1]
    have hends := hat.toAimed.ends_bdelk1Key hp.wellFormed hw1 hcap hroom' (by rw [herr]) (by omega)
    rw [hroot] at hends
    refine hends.mono (fun _ _ h => h) fun a ha => ?_
    obtain ⟨m',t',fs',hout⟩ := ha
    have hdel := hp.without hout
    have hsh : a.2.ctx.shared = false := hout.keeps.shared.trans hw1.shared
    simp only [leave, exec_bind, exec_get, Prog.Outcome.bind_done, exec_ite, hsh, Bool.false_eq_true, if_false, exec_pure,
      Prog.Outcome.ends_done, exec_btgerr]
    exact ⟨m',t',fs',Or.inl ⟨⟨e.val,hsome⟩,hout.err,hdel.plain,hspot.keeps.clear.clear.trans hdel.keeps,
      hdel.length.trans hlen.le,fun c hc => hdel.blocks c (hspot.blocks c hc)⟩⟩
  · simp only at hcode herr hp hk
    subst hcode
    have hsh : s1.ctx.shared = false := hk.shared.trans hw.shared
    simp only [Prog.Outcome.ends_done, show ¬ QNOKEY = 0 by decide, if_false, leave, exec_bind, exec_get,
      Prog.Outcome.bind_done, exec_ite, hsh, Bool.false_eq_true, exec_pure, exec_btgerr]
    exact ⟨m',t',fs',Or.inr ⟨hnone,herr,hp,hk.clear,by rw [hin],hblocks⟩⟩

end Btlib
