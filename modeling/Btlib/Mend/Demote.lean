import Btlib.Mend.Moves
import Btlib.Theory.Siblings

namespace Btlib

open Multiway

variable [Build] {n m : Nat} {s s' : St} {fs os : List Int} {a b c r x : Int} {es la lb : List KeyEnt} {e : KeyEnt}

theorem Index.collapse {ks : List (KeyTree n)} (h : Index s (BTree.node r [] [BTree.node c es ks]) fs os) (hes : es ≠ [])
    (ht : Turned s s' [r]) (hr : (s'.disk.block r).Shows es (ks.map BTree.link)) :
    Index (s'.without c) (BTree.node r es ks) (c :: fs) os := by
  have hids : (BTree.node r [] [BTree.node c es ks]).ids.Perm (c :: (BTree.node r es ks).ids) := by
    simp only [BTree.ids_node, List.map_cons, List.map_nil, List.flatten_cons, List.flatten_nil, List.append_nil]
    exact List.Perm.swap c r _
  have hnd := hids.nodup_iff.1 h.nodup
  simp only [BTree.ids_node, List.nodup_cons, List.mem_cons, not_or] at hnd
  obtain ⟨⟨hcr,hck⟩,hrk,-⟩ := hnd
  have hsuper : s'.ctx.super = s.ctx.super := by rw [ht.ctx]
  have hblock : ∀ d, d ≠ c → (s'.without c).disk.block d = s'.disk.block d := fun d hd => Function.update_of_ne hd _ _
  have hother : ∀ d, d ≠ r → s'.disk.block d = s.disk.block d := fun d hd =>
    ht.other d (List.not_mem_cons_of_ne_of_not_mem hd List.not_mem_nil)
  have hstore : Store s' fs (c :: ((BTree.node r es ks).ids ++ os)) := by
    refine (h.store.perm (hids.append_right os)).transfer ht.size (fun d hd => hother d ?_) (by rw [hsuper]) (by rw [hsuper])
    rintro rfl
    exact h.store.not_mem_free (List.mem_append_left _ List.mem_cons_self) hd
  have hkids := ((holds_node.1 h.holds).2 _ (List.mem_singleton_self _)).2
  refine h.change rfl ?_ (holds_node.2 ⟨?_,fun k hk => (hkids k hk).congr fun d hd => ?_⟩) hstore.without fun d hd => ?_
  · change s'.ctx.super.scroot = s.ctx.super.scroot
    rw [hsuper]
  · rw [hblock _ (Ne.symm hcr), nodeLinks_of_ne hes]
    exact hr
  · have hmem : d ∈ (ks.map BTree.ids).flatten := List.mem_flatten.2 ⟨_,List.mem_map_of_mem hk,hd⟩
    rw [hblock d (ne_of_mem_of_not_mem hmem hck), hother d (ne_of_mem_of_not_mem hmem hrk)]
  · refine Or.inl ⟨hids.mem_iff.2 (List.mem_cons_of_mem _ hd),?_⟩
    rw [hblock d ?_]
    · exact (ht.info d).btype
    · rintro rfl
      rcases List.mem_cons.1 hd with hd | hd
      · exact hcr hd
      · exact hck hd

-- The last found position in the parent above, at the link that the frame leaves open.
def St.upTo {j : Nat} (s : St) (g : KeyFrame j) (p : KeyPath (j + 1) m) : St :=
  { s with ctx.lf := { s.ctx.lf with lfpos := g.le.length, lfblk := g.id }, ctx.stk := down p }

section Parent

variable {g : KeyFrame (n + 2)} {p : KeyPath (n + 3) m} {ka kb : List (KeyTree (n + 1))} {k : KeyTree (n + 1)}

omit [Build] in
theorem exec_toParent {f : KeyFrame (n + 2)} (hsize : f.size ≠ 0) (hstk : s.ctx.stk = down (Path.step f p)) :
    exec pullParent s = .done ((), s.upTo f p) := by
  have hpull := exec_pullParent (s := s) (u := framePos f) (v := f.id) hstk
  rwa [framePos, if_neg hsize] at hpull

omit [Build] in
theorem exec_back (e : KeyEnt) (t : KeyTree (n + 2)) :
    exec (setPos (· - 1)) (s.upTo (g.withLeft e t) p) = .done ((), s.upTo g p) := by
  unfold setPos
  rw [exec_setLf]
  simp [St.upTo, Frame.withLeft]

omit [Build] in
theorem Index.link_nonneg (h : Index s (p.plug (g.fillTwo (BTree.node a la ka) e (BTree.node b lb kb))) fs os)
    (hk : k ∈ ka ++ kb) : 0 ≤ k.link := by
  refine (h.has (ids_two.mem_iff.2 ?_)).1
  refine List.mem_cons_of_mem _ (List.mem_cons_of_mem _ (List.mem_cons_of_mem _ (List.mem_append_left _ ?_)))
  exact List.mem_flatten.2 ⟨_,List.mem_map_of_mem hk,Index.link_mem⟩

theorem exec_bdemteParent_left
    (h : Index s (p.plug (g.fillTwo (BTree.node a la ka) e (BTree.node x [] [k]))) fs os) (hla : la ≠ [])
    (hka : ka.length = la.length + 1) (hroom : la.length < ZMXKEY)
    (hstk : s.ctx.stk = down (Path.step (g.withLeft e (BTree.node a la ka)) p)) :
    ∃ s', exec (bdemteParent k.link) s = .done (a, s') ∧
      Index s' (p.plug (g.fill (BTree.node a (la ++ [e]) (ka ++ [k])))) (x :: fs) os ∧ Undisturbed s s' os ∧
      s'.ctx.lf.lfblk = g.id ∧ s'.ctx.stk = down p := by
  obtain ⟨-,hg,-,⟨hA,-⟩,-⟩ := holds_two.1 h.holds
  obtain ⟨hax,hag,hxg,hroot,hmem⟩ := h.two_nodup
  have hk := h.link_nonneg (k := k) (by simp)
  have hgid := h.has (hmem g.id (by simp))
  have haid := h.has (hmem a (by simp))
  have hxid := h.has (hmem x (by simp))
  have hA : (s.disk.block a).Shows la (ka.map BTree.link) := hA
  have hg' : (s.disk.block g.id).Shows (g.le ++ e :: g.re)
      ((g.lk.map BTree.link ++ [a]) ++ x :: g.rk.map BTree.link) := by simpa using hg
  -- the position is put back to the entry between the two
  have hpull := exec_toParent (f := g.withLeft e (BTree.node a la ka)) (by rw [Frame.size_withLeft]; omega) hstk
  have hne : ((g.withLeft e (BTree.node a la ka)).le.length : Int) ≠ 0 := by
    simp [Frame.withLeft]
    omega
  have hn0 := exec_bgtinf (s := s.upTo (g.withLeft e (BTree.node a la ka)) p) hgid .ZNKEYS
  obtain ⟨o,ho,ho1,ho2,hsrh⟩ := exec_bsrhlf_at (s := s.upTo g p) (c := g.id) hgid hg (by rw [List.length_map, g.hl])
    rfl rfl
  -- the parent loses the entry
  have hrem := exec_bremky (s := { s.upTo g p with ctx.keyent := e }) hgid (g.le.length : Int)
  have hQ := Block.remky_shows hg' (by simp [g.hl]) (by simp [g.hr])
  have iQ := Block.remky_sameInfo (s.disk.block g.id) g.le.length
  have hdisk : (s.upTo g p).disk = s.disk := rfl
  simp only [hdisk] at hrem
  generalize (s.disk.block g.id).remky g.le.length = Q at hrem hQ iQ
  have t1 := ((Turned.refl (s.upTo g p) [g.id,a,x]).keyent e).put (c := g.id) (by simp) iQ
  have hna := exec_bgtinf (t1.has haid) .ZNKEYS
  -- the sibling takes it
  have hput := exec_bputky (t1.has haid) e ZNULL k.link (by
    rw [Disk.block_put, Function.update_of_ne hag]
    change (s.disk.block a).nkeys ≠ ZMXKEY
    rw [hA.nkeys]
    omega)
  have hA1 : ((s.disk.block a).putky e ZNULL k.link).Shows (la ++ [e]) (ka.map BTree.link ++ [k.link]) :=
    Block.putky_last hA hla (by rw [List.length_map, hka]) hk
  have iA := Block.putky_sameInfo (s.disk.block a) e ZNULL k.link
  simp only [Disk.block_put, Function.update_of_ne hag, hdisk, Block.getInf_ZNKEYS, hA.nkeys] at hna hput
  generalize (s.disk.block a).putky e ZNULL k.link = A at hput hA1 iA
  have t2 := t1.put (c := a) (by simp) (B := A) (by rw [Disk.block_put, Function.update_of_ne hag]; exact iA)
  have hfr := exec_bmkfre (t2.has hxid) (by rw [(t2.info x).btype]; exact h.not_dup (hmem x (by simp)))
  have hup : Index (s.upTo g p) _ fs os := h.withCtx rfl
  have hst := (Undisturbed.same (s := s) (rfl : (s.upTo g p).disk = s.disk) rfl rfl).trans (hup.undisturbed t2 hmem)
  refine ⟨_,?_,hup.fuse t2 ?_ ?_,hst.without (h.not_mem_os (hmem x (by simp))) hroot,rfl,rfl⟩
  · unfold bdemteParent
    refine (exec_then hpull).trans ((exec_then (exec_get _)).trans ((exec_then hn0).trans ((exec_then (exec_get _)).trans ?_)))
    have hpos : (s.upTo (g.withLeft e (BTree.node a la ka)) p).ctx.lf.lfpos ≠ 0 := hne
    have hfull : ¬ (la.length : Int) = ZMXKEY := by omega
    simp only [ne_eq, hpos, not_false_eq_true, decide_true, if_true]
    refine (exec_then (exec_back e _)).trans ((exec_then hsrh).trans ?_)
    rw [if_neg (not_not.2 ho), ho1, ho2]
    refine (exec_then (exec_get _)).trans ((exec_then hrem).trans ((exec_then hna).trans ?_))
    simp only [hfull, if_false, false_and]
    refine (exec_then (exec_pure _ _)).trans ((exec_then (exec_get _)).trans ((exec_then hput).trans ((exec_then hfr).trans ?_)))
    rfl
  · rw [Disk.block_put, Function.update_self, List.map_append]
    exact hA1
  · rw [Disk.block_put, Function.update_of_ne (Ne.symm hag), Disk.block_put, Function.update_self]
    simpa using hQ

theorem exec_bdemteParent_right
    (h : Index s (p.plug (g.fillTwo (BTree.node x [] [k]) e (BTree.node b lb kb))) fs os) (hlb : lb ≠ [])
    (hkb : kb.length = lb.length + 1) (hroom : lb.length < ZMXKEY) (hle : g.le = []) (hlt : ∀ y ∈ lb, e.key < y.key)
    (hstk : s.ctx.stk = down (Path.step (g.withRight e (BTree.node b lb kb)) p)) :
    ∃ s', exec (bdemteParent k.link) s = .done (x, s') ∧
      Index s' (p.plug (g.fill (BTree.node x (e :: lb) (k :: kb)))) (b :: fs) os ∧ Undisturbed s s' os ∧
      s'.ctx.lf.lfblk = g.id ∧ s'.ctx.stk = down p := by
  obtain ⟨-,hg,-,-,⟨hB,-⟩⟩ := holds_two.1 h.holds
  obtain ⟨hxb,hxg,hbg,hroot,hmem⟩ := h.two_nodup
  have hk := h.link_nonneg (k := k) (by simp)
  have hgid := h.has (hmem g.id (by simp))
  have hxid := h.has (hmem x (by simp))
  have hbid := h.has (hmem b (by simp))
  have hB : (s.disk.block b).Shows lb (kb.map BTree.link) := hB
  have hg' : (s.disk.block g.id).Shows (g.le ++ e :: g.re)
      ((g.lk.map BTree.link ++ [x]) ++ b :: g.rk.map BTree.link) := by simpa using hg
  have hpull := exec_toParent (f := g.withRight e (BTree.node b lb kb)) (by rw [Frame.size_withRight]; omega) hstk
  have hupto : s.upTo (g.withRight e (BTree.node b lb kb)) p = s.upTo g p := rfl
  rw [hupto] at hpull
  have hn0 := exec_bgtinf (s := s.upTo g p) hgid .ZNKEYS
  obtain ⟨o,ho,ho1,ho2,hsrh⟩ := exec_bsrhlf_at (s := s.upTo g p) (c := g.id) hgid hg (by rw [List.length_map, g.hl])
    rfl rfl
  -- the parent loses the entry
  have hrem := exec_bremky (s := { s.upTo g p with ctx.keyent := e }) hgid (g.le.length : Int)
  have hQ := Block.remky_shows hg' (by simp [g.hl]) (by simp [g.hr])
  have iQ := Block.remky_sameInfo (s.disk.block g.id) g.le.length
  have hdisk : (s.upTo g p).disk = s.disk := rfl
  simp only [hdisk] at hrem
  generalize (s.disk.block g.id).remky g.le.length = Q at hrem hQ iQ
  have t1 := ((Turned.refl (s.upTo g p) [g.id,x,b]).keyent e).put (c := g.id) (by simp) iQ
  -- the node takes what its sibling holds
  have hnb := exec_bgtinf (t1.has hbid) .ZNKEYS
  have hbs := exec_bsetbs (t1.has hxid) true
  have hcp := exec_bcpybk (t1.has hxid) (t1.has hbid) 0 0 lb.length
  have hX1 := Block.cpybk_whole (b := s.disk.block x) hB (by rw [List.length_map, hkb])
  have iX1 := (Block.cpybk_sameInfo (s.disk.block x) (s.disk.block b) 0 0 lb.length).1
  simp only [Disk.block_put, Function.update_of_ne hbg, Function.update_of_ne hxg, hdisk, Block.getInf_ZNKEYS, hB.nkeys,
    Int.toNat_natCast] at hnb hcp
  generalize (s.disk.block x).cpybk (s.disk.block b) 0 0 lb.length = X at hcp hX1 iX1
  have t2 := t1.put (c := x) (by simp) (B := X) (by rw [Disk.block_put, Function.update_of_ne hxg]; exact iX1)
  have hst := exec_bstinf (t2.has hxid) .ZNKEYS lb.length
  simp only [Disk.block_put, Function.update_self, Block.setInf_ZNKEYS] at hst
  have t3 := t2.put (c := x) (by simp) (B := { X with nkeys := (lb.length : Int) }) (by
    rw [Disk.block_put, Function.update_self]
    exact ⟨rfl,rfl,rfl,rfl,rfl,rfl,rfl⟩)
  have hbs2 := exec_bsetbs (t3.has hxid) false
  -- and the entry before it
  have hput := exec_bputky (t3.has hxid) e k.link ZNULL (by
    rw [Disk.block_put, Function.update_self]
    change (lb.length : Int) ≠ ZMXKEY
    omega)
  obtain ⟨k0,kb,rfl⟩ := List.exists_cons_of_length_eq_add_one hkb
  have hX2 := Block.putky_first hX1 hlb (by simpa using hkb) hk fun y hy => strcmp_nonpos_iff.2 (hlt y hy).le
  have iX2 := Block.putky_sameInfo { X with nkeys := (lb.length : Int) } e k.link ZNULL
  simp only [Disk.block_put, Function.update_self] at hput
  generalize Block.putky { X with nkeys := (lb.length : Int) } e k.link ZNULL = Y at hput hX2 iX2
  have t4 := t3.put (c := x) (by simp) (B := Y) (by rw [Disk.block_put, Function.update_self]; exact iX2)
  have hfr := exec_bmkfre (t4.has hbid) (by rw [(t4.info b).btype]; exact h.not_dup (hmem b (by simp)))
  have hup : Index (s.upTo g p) _ fs os := h.withCtx rfl
  have hsteady := (Undisturbed.same (s := s) (rfl : (s.upTo g p).disk = s.disk) rfl rfl).trans (hup.undisturbed t4 hmem)
  have hfuse := fun hx => hup.fuse t4 hx
  refine ⟨_,?_,hfuse ?_ ?_,hsteady.without (h.not_mem_os (hmem b (by simp))) hroot,rfl,rfl⟩
  · unfold bdemteParent
    refine (exec_then hpull).trans ((exec_then (exec_get _)).trans ((exec_then hn0).trans ((exec_then (exec_get _)).trans ?_)))
    have hpos : (s.upTo g p).ctx.lf.lfpos = 0 := by
      change (g.le.length : Int) = 0
      rw [hle]
      rfl
    have hfull : ¬ (lb.length : Int) = ZMXKEY := by omega
    simp only [ne_eq, hpos, not_true_eq_false, decide_false, Bool.false_eq_true, if_false]
    refine (exec_then hsrh).trans ?_
    rw [if_neg (not_not.2 ho), ho1, ho2]
    refine (exec_then (exec_get _)).trans ((exec_then hrem).trans ((exec_then hnb).trans ?_))
    simp only [hfull, if_false, false_and]
    refine (exec_then (exec_pure _ _)).trans ((exec_then hnb).trans ((exec_then hbs).trans ((exec_then hcp).trans ?_)))
    refine (exec_then hst).trans ((exec_then hbs2).trans ((exec_then (exec_get _)).trans ?_))
    exact (exec_then hput).trans ((exec_then hfr).trans rfl)
  · rw [Disk.block_put, Function.update_self]
    exact hX2
  · simp only [Disk.block_put, Function.update_of_ne (Ne.symm hxg), Function.update_self]
    simpa using hQ

end Parent

theorem exec_bdemte_root {ks : List (KeyTree n)} (h : Index s (BTree.node r [] [BTree.node c es ks]) fs os) (hes : es ≠ [])
    (hks : ks.length = es.length + 1) (hblk : s.ctx.lf.lfblk = r) :
    ∃ s', exec (bdemte c) s = .done (ZNULL, s') ∧ Index s' (BTree.node r es ks) (c :: fs) os ∧ Undisturbed s s' os := by
  have hroot : r = s.ctx.super.scroot := h.link
  have hmemr : r ∈ (BTree.node r [] [BTree.node c es ks]).ids := List.mem_cons_self
  have hmemc : c ∈ (BTree.node r [] [BTree.node c es ks]).ids := by simp [BTree.ids_node]
  have hcr : c ≠ r := fun heq => by
    have hnd := h.nodup
    simp [BTree.ids_node, heq] at hnd
  have hrid := h.has hmemr
  have hcid := h.has hmemc
  obtain ⟨⟨hn,-,-⟩,hkid⟩ := holds_node.1 h.holds
  have hC : (s.disk.block c).Shows es (nodeLinks es ks) := (hkid _ (List.mem_singleton_self _)).1
  rw [nodeLinks_of_ne hes] at hC
  have hnr := exec_bgtinf hrid .ZNKEYS
  have htr := exec_bgtinf hrid .ZBTYPE
  have hnc := exec_bgtinf hcid .ZNKEYS
  have hcp := exec_bcpybk hrid hcid 0 0 es.length
  have hR := Block.cpybk_whole (b := s.disk.block r) hC (by rw [List.length_map, hks])
  have iR := (Block.cpybk_sameInfo (s.disk.block r) (s.disk.block c) 0 0 es.length).1
  rw [Block.getInf_ZNKEYS, hn] at hnr
  rw [Block.getInf_ZBTYPE, h.kind r hmemr, if_pos hroot] at htr
  rw [Block.getInf_ZNKEYS, hC.nkeys] at hnc
  rw [Int.toNat_natCast] at hcp
  generalize (s.disk.block r).cpybk (s.disk.block c) 0 0 es.length = R at hcp hR iR
  have t1 := (Turned.refl s [r]).put (c := r) (by simp) iR
  have hst := exec_bstinf (t1.has hrid) .ZNKEYS es.length
  simp only [Disk.block_put, Function.update_self, Block.setInf_ZNKEYS] at hst
  have t2 := t1.put (c := r) (by simp) (B := { R with nkeys := (es.length : Int) }) (by
    rw [Disk.block_put, Function.update_self]
    exact ⟨rfl,rfl,rfl,rfl,rfl,rfl,rfl⟩)
  have hfr := exec_bmkfre (t2.has hcid) (by rw [(t2.info c).btype]; exact h.not_dup hmemc)
  refine ⟨_,?_,h.collapse hes t2 ?_,(h.undisturbed t2 ?_).without (h.not_mem_os hmemc) (hroot ▸ hcr)⟩
  · unfold bdemte
    refine (exec_then (exec_get _)).trans ?_
    simp only [hblk]
    refine (exec_then hnr).trans ?_
    rw [if_pos (show (([] : List KeyEnt).length : Int) = 0 from rfl)]
    refine (exec_then htr).trans ?_
    rw [if_neg (not_not.2 rfl)]
    exact (exec_then hnc).trans ((exec_then hcp).trans ((exec_then hst).trans ((exec_then hfr).trans rfl)))
  · rw [Disk.block_put, Function.update_self]
    exact hR
  · intro d hd
    rw [List.mem_singleton.1 hd]
    exact hmemr

-- The last found position is in the node `t`, which may have lost its last entry, with the way to it on the stack.
structure Adrift (s : St) (p : KeyPath (n + 2) m) (t : KeyTree (n + 2)) (fs os : List Int) : Prop where
  index : Index s (p.plug t) fs os
  blk : s.ctx.lf.lfblk = t.link
  stack : s.ctx.stk = down p
  path : p.Wf ZMXKEY
  node : t.Wf ZMXKEY 0
  sorted : Sorted KeyEnt.key (p.plug t).inorder

theorem bdemteLoop_null (N : Nat) : exec (bdemteLoop (N + 1) ZNULL) s = .done ((), s) := rfl

theorem Adrift.exec_stays {p : KeyPath (n + 2) m} {t : KeyTree (n + 2)} (h : Adrift s p t fs os)
    (hes : Node.ents t ≠ []) (N : Nat) : exec (bdemteLoop (N + 2) c) s = .done ((), s) := by
  by_cases hc : c = ZNULL
  · subst hc
    exact bdemteLoop_null _
  · have hmem : t.link ∈ (p.plug t).ids := Index.mem_plug.2 (Or.inl Index.link_mem)
    have hn := exec_bgtinf (h.index.has hmem) .ZNKEYS
    obtain ⟨-,⟨hn0,-,-⟩,-⟩ := (holds_plug_iff p t).1 h.index.holds
    have hn0 : (s.disk.block t.link).nkeys = (Node.ents t).length := hn0
    rw [Block.getInf_ZNKEYS, hn0] at hn
    have hne : ¬ ((Node.ents t).length : Int) = 0 := by
      have := List.length_pos_iff.2 hes
      omega
    have hdem : exec (bdemte c) s = .done (ZNULL, s) := by
      unfold bdemte
      refine (exec_then (exec_get _)).trans ?_
      simp only [h.blk]
      refine (exec_then hn).trans ?_
      rw [if_neg hne]
      rfl
    rw [bdemteLoop, if_neg hc]
    exact exec_then hdem

-- An empty node of which the parent has taken an entry away: `u` is what becomes of the parent, and `d` its last child.
structure Demoted (s s' : St) (f : KeyFrame (n + 2)) (q : KeyPath (n + 3) m) (t : KeyTree (n + 2)) (d : Int)
    (u : KeyTree (n + 3)) (fs fs' os : List Int) : Prop where
  adrift : Adrift s' q u fs' os
  size : (Node.ents u).length + 1 = f.size
  only : Node.ents u = [] → (Node.kids u).map BTree.link = [d]
  inorder : (q.plug u).inorder = (q.plug (f.fill t)).inorder
  undisturbed : Undisturbed s s' os
  blocks : (fs' ++ (q.plug u).ids).Perm (fs ++ (q.plug (f.fill t)).ids)

section Step

variable {f : KeyFrame (n + 2)} {q : KeyPath (n + 3) m} {k : KeyTree (n + 1)}

theorem Adrift.exec_up (h : Adrift s (.step f q) (BTree.node x [] [k]) fs os) (c : Int) :
    exec (bdemte c) s = exec (bdemteParent c) s := by
  have hmem : x ∈ ((Path.step f q).plug (BTree.node x [] [k])).ids := Index.mem_plug.2 (Or.inl List.mem_cons_self)
  have hne : x ≠ s.ctx.super.scroot := fun heq => by
    have hnd := ((Path.step f q).ids_plug _).nodup_iff.1 h.index.nodup
    refine (List.nodup_append.1 hnd).2.2 x List.mem_cons_self _ (Path.top_step_mem f q x) ?_
    rw [heq, ← h.index.link, link_plug]
    rfl
  have hn := exec_bgtinf (h.index.has hmem) .ZNKEYS
  have ht := exec_bgtinf (h.index.has hmem) .ZBTYPE
  obtain ⟨-,⟨hn0,-,-⟩,-⟩ := (holds_plug_iff (Path.step f q) _).1 h.index.holds
  have hn0 : (s.disk.block x).nkeys = 0 := hn0
  rw [Block.getInf_ZNKEYS, hn0] at hn
  rw [Block.getInf_ZBTYPE, h.index.kind x hmem, if_neg hne] at ht
  have hblk : s.ctx.lf.lfblk = x := h.blk
  unfold bdemte
  refine (exec_then (exec_get _)).trans ?_
  simp only [hblk]
  refine (exec_then hn).trans ?_
  rw [if_pos rfl]
  refine (exec_then ht).trans ?_
  rw [if_pos (by decide)]

theorem Adrift.demoted {g : KeyFrame (n + 2)} {t : KeyTree (n + 2)} {ka kb : List (KeyTree (n + 1))}
    (h : Adrift s (.step f q) t fs os) (hfill : f.fill t = g.fillTwo (BTree.node a la ka) e (BTree.node b lb kb))
    (hsize : g.size + 1 = f.size) (hka : ka.length = la.length + 1) (hkb : kb.length = lb.length + 1)
    (hroom : la.length + lb.length < ZMXKEY) (hk : ∀ k ∈ g.lk ++ g.rk, k.Wf ZMXKEY 1)
    (hkids : ∀ k ∈ ka ++ kb, k.Wf ZMXKEY 1)
    (hidx : Index s' (q.plug (g.fill (BTree.node a (la ++ e :: lb) (ka ++ kb)))) (b :: fs) os) (hst : Undisturbed s s' os)
    (hblk : s'.ctx.lf.lfblk = g.id) (hstk : s'.ctx.stk = down q) :
    Demoted s s' f q t a (g.fill (BTree.node a (la ++ e :: lb) (ka ++ kb))) fs (b :: fs) os := by
  obtain ⟨hf,hq⟩ := Path.wf_step.1 h.path
  have hcap := hf.2.1
  have hin : (q.plug (g.fill (BTree.node a (la ++ e :: lb) (ka ++ kb)))).inorder = (q.plug (f.fill t)).inorder := by
    rw [hfill, q.inorder_plug, q.inorder_plug, inorder_fused hka]
  have hents : (Node.ents (g.fill (BTree.node a (la ++ e :: lb) (ka ++ kb)))).length = g.size := List.length_append
  refine ⟨⟨hidx,hblk,hstk,hq,?_,?_⟩,by rw [hents, hsize],fun hnil => ?_,hin,hst,?_⟩
  · refine (g.wf_fill_iff _).2 ⟨⟨Nat.zero_le _,by omega,hk⟩,BTree.wf_node.2 ⟨?_,?_,?_,hkids⟩⟩
    all_goals simp only [List.length_append, List.length_cons]
    all_goals omega
  · rw [hin]
    exact h.sorted
  · rw [hnil, List.length_nil] at hents
    have hle : g.le = [] := List.length_eq_zero_iff.1 (by rw [Frame.size] at hents; omega)
    have hre : g.re = [] := List.length_eq_zero_iff.1 (by rw [Frame.size] at hents; omega)
    change (g.lk ++ _ :: g.rk).map BTree.link = [a]
    rw [g.lk_nil hle, g.rk_nil hre]
    rfl
  · rw [hfill]
    exact (perm_behind b fs).symm.trans (ids_fuse.symm.append_left fs)

theorem Adrift.exec_step (h : Adrift s (.step f q) (BTree.node x [] [k]) fs os) (hroom : ∀ u ∈ f.beside, u.width < ZMXKEY) :
    ∃ s' d u fs', exec (bdemte k.link) s = .done (d, s') ∧ d ≠ ZNULL ∧ Demoted s s' f q (BTree.node x [] [k]) d u fs fs' os := by
  rw [h.exec_up]
  obtain ⟨hf,hq⟩ := Path.wf_step.1 h.path
  have hk : ∀ c ∈ [k], c.Wf ZMXKEY 1 := (BTree.wf_node.1 h.node).2.2.2
  rcases f.left_cases with hle | ⟨g,e,u,rfl⟩
  · rcases f.right_cases with hre | ⟨g,e,u,rfl⟩
    · have hsize := hf.1
      rw [Frame.size, hle, hre, show q.floor = 1 by cases q <;> rfl] at hsize
      simp at hsize
    · obtain ⟨hu,hsib⟩ := Frame.Wf.of_withRight _ _ hf
      obtain ⟨b,lb,kb,rfl⟩ := u.eq_node
      obtain ⟨hlb,-,hkb,hkbs⟩ := BTree.wf_node.1 hu
      have hle : g.le = [] := hle
      have hwidth : lb.length < ZMXKEY := hroom (BTree.node b lb kb) (Frame.beside_withRight _ _ _ hle)
      have hindex : Index s (q.plug (g.fillTwo (BTree.node x [] [k]) e (BTree.node b lb kb))) fs os := h.index
      have hfill : (g.withRight e (BTree.node b lb kb)).fill (BTree.node x [] [k]) =
          g.fillTwo (BTree.node x [] [k]) e (BTree.node b lb kb) := rfl
      have hlt : ∀ y ∈ lb, e.key < y.key := by
        intro y hy
        have hsort := h.sorted
        rw [Path.plug_step, q.inorder_plug] at hsort
        have hsort := hsort.left.right
        rw [hfill, g.inorder_fillTwo] at hsort
        refine (List.pairwise_cons.1 hsort.left.right.right).1 y ?_
        exact mem_weave.2 (Or.inr hy)
      obtain ⟨s',hrun,hidx,hst,hblk,hstk⟩ := exec_bdemteParent_right hindex (List.length_pos_iff.1 hlb) hkb hwidth hle hlt
        h.stack
      have hx : x ∈ (q.plug (g.fillTwo (BTree.node x [] [k]) e (BTree.node b lb kb))).ids :=
        hindex.two_nodup.2.2.2.2 x (by simp)
      refine ⟨s',x,_,b :: fs,hrun,(hindex.has hx).ne_null,h.demoted hfill ?_ rfl hkb ?_ hsib ?_
        hidx hst hblk hstk⟩
      · rw [Frame.size_withRight]
      · rw [List.length_nil]
        omega
      · exact fun c hc => (List.mem_cons.1 hc).elim (fun hc => hk c (by simp [hc])) (hkbs c)
  · obtain ⟨hu,hsib⟩ := Frame.Wf.of_withLeft _ _ hf
    obtain ⟨a,la,ka,rfl⟩ := u.eq_node
    obtain ⟨hla,-,hka,hkas⟩ := BTree.wf_node.1 hu
    have hwidth : la.length < ZMXKEY := hroom (BTree.node a la ka) (Frame.beside_withLeft _ _ _)
    have hindex : Index s (q.plug (g.fillTwo (BTree.node a la ka) e (BTree.node x [] [k]))) fs os := by
      rw [← Frame.fill_withLeft]
      exact h.index
    obtain ⟨s',hrun,hidx,hst,hblk,hstk⟩ := exec_bdemteParent_left hindex (List.length_pos_iff.1 hla) hka hwidth h.stack
    have ha : a ∈ (q.plug (g.fillTwo (BTree.node a la ka) e (BTree.node x [] [k]))).ids :=
      hindex.two_nodup.2.2.2.2 a (by simp)
    refine ⟨s',a,_,x :: fs,hrun,(hindex.has ha).ne_null,h.demoted (Frame.fill_withLeft _ _ _ _) ?_ hka rfl ?_ hsib ?_
      hidx hst hblk hstk⟩
    · rw [Frame.size_withLeft]
    · rw [List.length_nil]
      omega
    · exact fun c hc => (List.mem_append.1 hc).elim (hkas c) (hk c)

end Step

-- The tree `t` is in order again, with the entries and the blocks that `t0` had.
structure Repaired {m' : Nat} (s s' : St) (t0 : KeyTree m) (t : KeyTree m') (fs fs' os : List Int) : Prop where
  index : Index s' t fs' os
  wf : t.RootWf ZMXKEY
  pos : 0 < m'
  inorder : t.inorder = t0.inorder
  undisturbed : Undisturbed s s' os
  blocks : (fs' ++ t.ids).Perm (fs ++ t0.ids)

theorem Adrift.repaired {p : KeyPath (n + 2) m} {t : KeyTree (n + 2)} (h : Adrift s p t fs os) (hes : Node.ents t ≠ []) :
    Repaired s s (p.plug t) (p.plug t) fs fs os := by
  obtain ⟨x,es,ks,rfl⟩ := t.eq_node
  have hm := p.height_eq
  have hwf := BTree.wf_node.1 h.node
  refine ⟨h.index,(p.rootWf_plug_iff _).2 ⟨h.path,?_⟩,by omega,rfl,.refl s os,.refl _⟩
  exact (BTree.wf_node.2 ⟨List.length_pos_iff.2 hes,hwf.2⟩ : (BTree.node x es ks).Wf ZMXKEY 1).mono p.floor_le_one

omit [Build] in
theorem eq_only {t : KeyTree (n + 2)} (hes : Node.ents t = []) (hc : (Node.kids t).map BTree.link = [c]) :
    ∃ x, ∃ k : KeyTree (n + 1), t = BTree.node x [] [k] ∧ k.link = c := by
  obtain ⟨x,es,ks,rfl⟩ := t.eq_node
  obtain rfl : es = [] := hes
  have hc : ks.map BTree.link = [c] := hc
  obtain ⟨k,rfl⟩ : ∃ k, ks = [k] := List.length_eq_one_iff.1 (by simpa using congrArg List.length hc)
  exact ⟨x,k,rfl,by simpa using hc⟩

theorem Adrift.exec_root {k : KeyTree (n + 1)} (h : Adrift s .root (BTree.node x [] [k]) fs os) (hnull : k.link ≠ ZNULL)
    (N : Nat) : ∃ s' m' fs', ∃ t' : KeyTree m', exec (bdemteLoop (N + 2) k.link) s = .done ((), s') ∧
      Repaired s s' (BTree.node x [] [k]) t' fs fs' os := by
  obtain ⟨c,es,ks,rfl⟩ := k.eq_node
  obtain ⟨hlow,hcap,hks,hkw⟩ := BTree.wf_node.1 ((BTree.wf_node.1 h.node).2.2.2 _ (List.mem_singleton_self _))
  obtain ⟨s1,hrun,hidx,hst⟩ := exec_bdemte_root h.index (List.length_pos_iff.1 hlow) hks h.blk
  refine ⟨s1,n + 1,c :: fs,BTree.node x es ks,?_,hidx,?_,by omega,?_,hst,?_⟩
  · rw [bdemteLoop, if_neg hnull]
    exact exec_then hrun
  · exact (BTree.wf_node.2 ⟨hlow,hcap,hks,hkw⟩ : (BTree.node x es ks).Wf ZMXKEY 1).mono (Path.floor_le_one _)
  · simp [BTree.inorder_node]
  · simp only [BTree.ids_node, List.map_cons, List.map_nil, List.flatten_cons, List.flatten_nil, List.append_nil]
    exact (perm_behind c fs).symm.trans ((List.Perm.swap x c _).append_left fs)

-- The demotion goes up until a node has entries left, or takes the root away; the induction is on the way up.
theorem Adrift.exec_bdemteLoop (d N : Nat) {p : KeyPath (n + 2) m} {t : KeyTree (n + 2)} (h : Adrift s p t fs os)
    (hd : p.depth = d) (hc : Node.ents t = [] → (Node.kids t).map BTree.link = [c] ∧ c ≠ ZNULL)
    (hsp : Node.ents t = [] → p.Spares ZMXKEY) : ∃ s' m' fs', ∃ t' : KeyTree m',
      exec (bdemteLoop (d + N + 2) c) s = .done ((), s') ∧ Repaired s s' (p.plug t) t' fs fs' os := by
  induction d generalizing n s c fs with
  | zero =>
      by_cases hes : Node.ents t = []
      · obtain ⟨hkids,hnull⟩ := hc hes
        obtain ⟨x,k,rfl,rfl⟩ := eq_only hes hkids
        cases p with
        | root => exact h.exec_root hnull _
        | step f q => simp [Path.depth] at hd
      · exact ⟨s,m,fs,p.plug t,h.exec_stays hes _,h.repaired hes⟩
  | succ d ih =>
      by_cases hes : Node.ents t = []
      · obtain ⟨hkids,hnull⟩ := hc hes
        obtain ⟨x,k,rfl,rfl⟩ := eq_only hes hkids
        cases p with
        | root => simp [Path.depth] at hd
        | step f q =>
            obtain ⟨hroom,hup⟩ := hsp rfl
            obtain ⟨s1,d1,u,fs1,hrun,hd1,hdem⟩ := h.exec_step hroom
            obtain ⟨s2,m',fs2,t',hloop,hset⟩ := ih hdem.adrift (by simpa [Path.depth] using hd)
              (fun hnil => ⟨hdem.only hnil,hd1⟩) (fun hnil => hup (by rw [← hdem.size, hnil]; rfl))
            refine ⟨s2,m',fs2,t',?_,hset.index,hset.wf,hset.pos,hset.inorder.trans hdem.inorder,
              hdem.undisturbed.trans hset.undisturbed,hset.blocks.trans hdem.blocks⟩
            have hN : d + 1 + N + 2 = (d + N + 2) + 1 := by omega
            rw [hN, bdemteLoop, if_neg hnull]
            exact (exec_then hrun).trans hloop
      · refine ⟨s,m,fs,p.plug t,?_,h.repaired hes⟩
        have hN : d + 1 + N + 2 = (d + 1 + N) + 2 := rfl
        rw [hN]
        exact h.exec_stays hes _

end Btlib
