import Btlib.Index.Descend
import Btlib.Theory.Image
import Btlib.Mend.Erase

namespace Btlib

open Multiway

variable {n m : Nat} {s s' : St} {fs os : List Int} {blk c : Int} {l r es : List KeyEnt} {e x y : KeyEnt}

section Image

variable {q : KeyPath 1 m} {φ : KeyEnt → KeyEnt}

theorem down_image {n m : Nat} (p : KeyPath n m) : down (p.image φ) = down p := by
  induction p with
  | root => rfl
  | step f p ih =>
      simp only [Path.image_step, down, ih, framePos, Frame.size_image]
      simp only [Frame.image, List.length_map]

theorem image_leaf (c : Int) (es : List KeyEnt) : (leaf c es).image φ = leaf c (es.map φ) := by
  rw [leaf, leaf, BTree.image_node, List.map_replicate, List.length_map]
  rfl

theorem inorder_plug_leaf (q : KeyPath 1 m) (c : Int) (es : List KeyEnt) :
    (q.plug (leaf c es)).inorder = q.left ++ es ++ q.right := by
  rw [q.inorder_plug, inorder_leaf]

theorem ids_plug_leaf (q : KeyPath 1 m) (c : Int) {es es' : List KeyEnt} :
    ((q.plug (leaf c es)).ids).Perm (q.plug (leaf c es')).ids := by
  refine (q.ids_plug _).trans (List.Perm.trans ?_ (q.ids_plug _).symm)
  rw [ids_leaf, ids_leaf]

variable [Build]

theorem merges_image {f : KeyFrame 1} : Merges (f.image φ) es ↔ Merges f es := by
  simp only [Merges, f.beside_image, f.size_image, Option.mem_map, forall_exists_index, and_imp,
    forall_apply_eq_imp_iff₂, BTree.width_image]

theorem SiblingRoom.image (h : SiblingRoom q es) : SiblingRoom (q.image φ) es := by
  intro f p hq hm
  cases q with
  | root => cases hq
  | step g q =>
      rw [Path.image_step] at hq
      cases hq
      exact (Path.spares_image φ).2 (h g q rfl (merges_image.1 hm))

end Image

variable [Build]

-- Where the tree has room for the deletion of `k`, the leaf that is to lose an entry for it is one of those that may.
theorem RoomFor.siblingRoom {q : KeyPath 1 m} {k : Key} (h : RoomFor k (q.plug (leaf c (l ++ x :: r))))
    (hl : ∀ y ∈ q.left, y.key < k) (hr : ∀ y ∈ q.right, k ≤ y.key) (hu : q.Uncut ZMXKEY sp) : SiblingRoom q (l ++ r) := by
  rintro f p rfl ⟨hsize,hmerge⟩
  have hleads : (Path.step f p).Leads KeyEnt.key k := Path.leads_of hl hr
  refine hleads.2.spares le_rfl hu.2 h (hleads.1.empties_leaf_iff.2 ⟨hsize,fun u hu => ?_⟩)
  have hwidth : (leaf c (l ++ x :: r)).width - 1 = (l ++ r).length := by
    change (l ++ x :: r).length - 1 = _
    simp only [List.length_append, List.length_cons]
    omega
  rw [hwidth]
  exact hmerge u hu

theorem Room.uncut {p : KeyPath n m} (h : Room ZMXKEY p) : p.Uncut ZMXKEY sp := by
  induction p with
  | root => trivial
  | step f p ih => exact ⟨fun hfull => absurd h.1 (by omega),ih h.2⟩

theorem Located.atLeaf {p : KeyPath 1 m} {ks : List (KeyTree 0)} (hat : Located s p blk l e)
    (h : Index s (p.plug (BTree.node blk (l ++ e :: r) ks)) fs os)
    (hwf : (p.plug (BTree.node blk (l ++ e :: r) ks)).RootWf ZMXKEY)
    (hsort : Sorted KeyEnt.key (p.plug (BTree.node blk (l ++ e :: r) ks)).inorder) (hfuel : m ≤ FUEL) :
    BTree.node blk (l ++ e :: r) ks = leaf blk (l ++ e :: r) ∧ AtLeaf s p blk l e r fs os := by
  obtain ⟨a,es,hes⟩ := eq_leaf ((p.rootWf_plug_iff _).1 hwf).2
  obtain rfl : blk = a := congrArg Node.id hes
  obtain rfl : l ++ e :: r = es := congrArg Node.ents hes
  rw [hes] at h hwf hsort
  have hm := p.height_eq
  have hdepth := hat.depth
  refine ⟨hes,h,hwf,?_,hat.lfblk,hat.lfpos,hat.stack,by omega,hfuel⟩
  rw [inorder_plug_leaf] at hsort ⊢
  refine hsort.sublist ?_
  exact ((List.sublist_append_right [e] r).append_left l).append_left _ |>.append_right _

omit [Build] in
theorem Block.repky_same (b : Block) (i : Int) (ke : KeyEnt) :
    b.repky i ke (b.lnkblk i) (b.lnkblk (i + 1)) = b.setKey i ke := by
  have h1 : (b.setKey i ke).setLnk i (b.lnkblk i) = b.setKey i ke := by
    simp only [Block.setLnk, Block.setKey, Function.update_eq_self]
  rw [Block.repky, h1]
  simp only [Block.setLnk, Block.setKey, Function.update_eq_self]

section Inner

-- An entry of an inner node, between what is below its two links.
variable {p : KeyPath (n + 2) m} {lk rk : List (KeyTree (n + 1))} {k : KeyTree (n + 1)} {hl : (lk.length = l.length)}
  {hr : rk.length = (e :: r).length}

-- The entries of a tree where one of an inner node gives way to its predecessor, which is in a leaf.
structure Heir (T : KeyTree m) (e : KeyEnt) (q : KeyPath 1 m) (c : Int) (l : List KeyEnt) (x : KeyEnt) (B : List KeyEnt) :
    Prop where
  tree : T = q.plug (leaf c (l ++ [x]))
  right : q.right = e :: B

theorem Edge.heir {g : KeyFrame 0} {q : KeyPath 1 m} (h : Edge s 1 (⟨blk,l,lk,e :: r,rk,hl,hr⟩ : KeyFrame (n + 1)) k p g q)
    (hwf : (p.plug (Frame.fill ⟨blk,l,lk,e :: r,rk,hl,hr⟩ k)).RootWf ZMXKEY) : ∃ l' x B, g.le = l' ++ [x] ∧
      Heir (p.plug (Frame.fill ⟨blk,l,lk,e :: r,rk,hl,hr⟩ k)) e q g.id l' x B := by
  have hre : g.re = [] := h.last (by decide) (Or.inl (by omega))
  have hsize := h.size
  rw [Frame.size, hre] at hsize
  obtain ⟨l',x,hle⟩ := (List.eq_nil_or_concat' g.le).resolve_left fun hnil => hsize (by rw [hnil]; rfl)
  have hright := h.right
  have hg : g.right = [] := Frame.right_of_re hre
  simp only [Path.right_step, hg, List.nil_append, if_neg one_ne_zero] at hright
  refine ⟨l',x,weave (rk.map BTree.inorder) r ++ p.right,hle,?_,hright.trans ?_⟩
  · rw [← h.plug, Path.plug_step] at hwf ⊢
    obtain ⟨a,es,hes⟩ := eq_leaf ((q.rootWf_plug_iff _).1 hwf).2
    have ha : g.id = a := congrArg Node.id hes
    have hents : g.le ++ g.re = es := congrArg Node.ents hes
    rw [hes, ← ha, ← hents, hre, hle, List.append_nil]
  · cases rk with
    | nil => simp at hr
    | cons u rk => simp [Frame.right]

section Replaced

variable {T : KeyTree m} {q : KeyPath 1 m} {B : List KeyEnt}

omit [Build] in
theorem Heir.inorder (h : Heir T e q c l x B) : T.inorder = (q.left ++ l ++ [x]) ++ e :: B := by
  simp only [h.tree, inorder_plug_leaf, h.right, List.append_assoc]

omit [Build] in
theorem Heir.once (h : Heir T e q c l x B) (hsort : Sorted KeyEnt.key T.inorder) :
    e ∉ q.left ∧ e ∉ l ++ [x] ∧ e ∉ B := by
  have hnd := hsort.nodup
  rw [h.inorder, List.perm_middle.nodup_iff, List.nodup_cons] at hnd
  simpa [and_assoc] using hnd.1

omit [Build] in
theorem Heir.image (h : Heir T e q c l x B) (hsort : Sorted KeyEnt.key T.inorder) :
    T.image (instead e x) = (q.image (instead e x)).plug (leaf c (l ++ [x])) := by
  rw [h.tree, ← q.plug_image, image_leaf, map_instead (h.once hsort).2.1]

omit [Build] in
theorem Heir.inorder_image (h : Heir T e q c l x B) (hsort : Sorted KeyEnt.key T.inorder) :
    ((q.image (instead e x)).plug (leaf c l)).inorder = (q.left ++ l ++ [x]) ++ B := by
  obtain ⟨hleft,-,hB⟩ := h.once hsort
  rw [inorder_plug_leaf, q.left_image, q.right_image, h.right, map_instead hleft, map_instead_cons hB]
  simp

theorem Heir.atLeaf (h : Heir T e q c l x B) (hsort : Sorted KeyEnt.key T.inorder) (hwf : T.RootWf ZMXKEY)
    (hix : Index s (T.image (instead e x)) fs os) (hblk : s.ctx.lf.lfblk = c) (hpos : s.ctx.lf.lfpos = l.length)
    (hstk : s.ctx.stk = down q) (hm : m ≤ 20) (hfuel : m ≤ FUEL) : AtLeaf s (q.image (instead e x)) c l x [] fs os := by
  have himg := h.image hsort
  refine ⟨himg ▸ hix,?_,?_,hblk,hpos,by rw [hstk, down_image],hm,hfuel⟩
  · rw [← himg]
    exact (BTree.wf_image _).2 hwf
  · rw [List.append_nil, h.inorder_image hsort]
    rw [h.inorder] at hsort
    exact hsort.remove

end Replaced

variable {p : KeyPath (n + 2) m} {lk rk : List (KeyTree (n + 1))} {k : KeyTree (n + 1)} {hl : lk.length = l.length}
  {hr : rk.length = (e :: r).length}

-- `replaceByLast` leaves a leaf that is to give up its last entry.
theorem Located.ends_replaceByLast {o : Srh} (hat : Located s p blk l e)
    (h : Index s (p.plug (Frame.fill ⟨blk,l,lk,e :: r,rk,hl,hr⟩ k)) fs os)
    (hwf : (p.plug (Frame.fill ⟨blk,l,lk,e :: r,rk,hl,hr⟩ k)).RootWf ZMXKEY)
    (hsort : Sorted KeyEnt.key (p.plug (Frame.fill ⟨blk,l,lk,e :: r,rk,hl,hr⟩ k)).inorder) (hfuel : m ≤ FUEL)
    (hcap : 3 ≤ ZMXKEY)
    (ho1 : o.link1 = (s.disk.block blk).lnkblk l.length)
    (ho2 : o.link2 = (s.disk.block blk).lnkblk (l.length + 1)) :
    (exec (replaceByLast blk l.length o) s).Ends (Refused s.ctx.super.scroot) fun a => a.1 = true ∧
      ∃ q c l' x B, Heir (p.plug (Frame.fill ⟨blk,l,lk,e :: r,rk,hl,hr⟩ k)) e q c l' x B ∧
        Index a.2 ((p.plug (Frame.fill ⟨blk,l,lk,e :: r,rk,hl,hr⟩ k)).image (instead e x)) fs os ∧
        a.2.ctx.lf.lfblk = c ∧ a.2.ctx.lf.lfpos = (l'.length : Int) ∧ a.2.ctx.stk = down q ∧ Undisturbed s a.2 os ∧
        m ≤ 20 ∧ (Room ZMXKEY p ∧ (l ++ e :: r).length ≠ ZMXKEY → q.Uncut ZMXKEY sp) := by
  have hsize : (⟨blk,l,lk,e :: r,rk,hl,hr⟩ : KeyFrame (n + 1)).size ≠ 0 := by
    simp only [Frame.size, List.length_cons]
    omega
  have hbelow : Below s (⟨blk,l,lk,e :: r,rk,hl,hr⟩ : KeyFrame (n + 1)) p :=
    ⟨hsize,hat.lfblk,hat.lfpos,hat.stack⟩
  have hmh := p.height_eq
  unfold replaceByLast
  rw [exec_bind]
  refine (ends_bleaf 1 h hwf hbelow (by omega)).bind ?_
  rintro ⟨b,s1⟩ ⟨g,q,he,-,rfl⟩
  obtain ⟨l',x,B,hle,hb⟩ := he.heir hwf
  -- the leaf and its last entry
  have hix : Index s (q.plug (leaf g.id (l' ++ [x]))) fs os := hb.tree ▸ h
  have hgid := hix.has (Index.mem_plug.2 (Or.inl List.mem_cons_self))
  have hbare := bare_of_holds ((holds_plug_iff q _).1 hix.holds).2 (by simp)
  have hshow : (s.disk.block g.id).Shows (l' ++ x :: []) (List.replicate l'.length ZNULL ++ ZNULL :: ZNULL :: []) := by
    have hlinks : List.replicate ((l' ++ [x]).length + 1) ZNULL = List.replicate l'.length ZNULL ++ [ZNULL, ZNULL] := by
      rw [List.length_append, List.length_singleton, Nat.add_assoc, List.replicate_add]
      rfl
    exact hlinks ▸ hbare
  have hpos : ((g.le.length : Int) - 1) = l'.length := by
    rw [hle, List.length_append, List.length_singleton]
    omega
  obtain ⟨s2,hs2⟩ : ∃ s2 : St, s2 = { s with
      ctx.stk := down q, ctx.lf := { s.ctx.lf with lfblk := g.id, lfpos := l'.length } } := ⟨_,rfl⟩
  have hset : exec (setPos fun x => x - 1)
      { s with ctx.stk := down q, ctx.lf := { s.ctx.lf with lfblk := g.id, lfpos := g.le.length } } = .done ((), s2) := by
    rw [setPos, exec_setLf, hs2]
    simp only [hpos]
  obtain ⟨o',ho',-,-,hsrh⟩ := exec_bsrhlf_at (s := s2) (c := g.id) (by rw [hs2]; exact hgid) (by rw [hs2]; exact hshow)
    (List.length_replicate ..) (by rw [hs2]) (by rw [hs2])
  -- the entry takes the place
  have hblk : s.disk.Has blk := h.has (Index.mem_plug.2 (Or.inl List.mem_cons_self))
  have hnode := BTree.wf_node.1 ((p.rootWf_plug_iff _).1 hwf).2
  have hlt : (l.length : Int) < ZMXKEY := by
    have := hnode.2.1
    simp only [List.length_append, List.length_cons] at this
    omega
  have hrep : exec (brepky blk l.length x ((s.disk.block blk).lnkblk l.length) ((s.disk.block blk).lnkblk (l.length + 1)))
      { s2 with ctx.keyent := x } = .done ((),
        { s2 with ctx.keyent := x, disk := s.disk.put blk ((s.disk.block blk).setKey l.length x) }) := by
    have hhas : s2.disk.Has blk := by rw [hs2]; exact hblk
    rw [exec_brepky (by exact hhas) _ _ _ _ (Int.natCast_nonneg _) hlt]
    simp only [hs2, Block.repky_same]
  rw [exec_then hset, exec_then hsrh, exec_then (exec_get _)]
  simp only [ho', ne_eq, not_true_eq_false, if_false, ho1, ho2]
  rw [exec_then hrep, exec_pure, Prog.Outcome.ends_done]
  have hmem : blk ∈ (p.plug (Frame.fill ⟨blk,l,lk,e :: r,rk,hl,hr⟩ k)).ids := Index.mem_plug.2 (Or.inl List.mem_cons_self)
  have himg : (p.plug (Frame.fill ⟨blk,l,lk,e :: r,rk,hl,hr⟩ k)).image (instead e x) =
      p.plug (BTree.node blk (l ++ x :: r) (lk ++ k :: rk)) := p.image_instead (by simp [hl]) hsort.nodup
  refine ⟨rfl,q,g.id,l',x,B,hb,?_,?_,?_,?_,?_,?_,?_⟩
  · rw [himg]
    exact h.replace (by rw [hs2]) rfl rfl
  · rw [hs2]
  · rw [hs2]
  · rw [hs2]
  · have hturn : Turned s { s with ctx.keyent := x, disk := s.disk.put blk ((s.disk.block blk).setKey l.length x) } [blk] :=
      ((Turned.refl s [blk]).keyent x).put (List.mem_singleton_self blk) ⟨rfl,rfl,rfl,rfl,rfl,rfl,rfl⟩
    refine (h.undisturbed hturn fun c hc => List.mem_singleton.1 hc ▸ hmem).trans (Undisturbed.same rfl ?_ ?_)
    · rw [hs2]
    · rw [hs2]
  · have hdepth := hat.depth
    have hstk := he.depth (by
      rw [hat.stack, length_down, STKMAX]
      omega)
    rw [length_down, STKMAX] at hstk
    have hq := q.height_eq
    omega
  · rintro ⟨hroom,hne⟩
    refine he.uncut hcap ⟨fun hfull => absurd ?_ hne,hroom.uncut⟩
    rw [List.length_append]
    exact hfull

end Inner

end Btlib
