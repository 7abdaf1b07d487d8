import Btlib.Mend.Balance
import Btlib.Index.Refine

namespace Btlib

open Multiway

section Leaves

variable {n m cap low : Nat} {D : Int → Block} {c : Int}

def leaves : {n : Nat} → KeyTree n → List (Int × List KeyEnt)
  | 0, _ => []
  | 1, t => [(Node.id t, Node.ents t)]
  | _ + 2, t => ((Node.kids t).map leaves).flatten

theorem bare_leaves {t : KeyTree n} (h : Holds D t) (hwf : t.Wf cap 1) :
    ∀ x ∈ leaves t, x.2 ≠ [] ∧ (D x.1).Bare x.2 := by
  induction n with
  | zero => exact fun x hx => absurd hx List.not_mem_nil
  | succ n ih =>
      cases n with
      | zero =>
          obtain ⟨a,es,rfl⟩ := eq_leaf hwf
          intro x hx
          obtain rfl : x = (a, es) := List.mem_singleton.1 hx
          have hne : es ≠ [] := List.length_pos_iff.1 (wf_leaf.1 hwf).1
          exact ⟨hne,bare_of_holds h hne⟩
      | succ n =>
          intro x hx
          obtain ⟨l,hl,hxl⟩ := List.mem_flatten.1 hx
          obtain ⟨k,hk,rfl⟩ := List.mem_map.1 hl
          exact ih (h.2 k hk) (hwf.2.2.2 k hk) x hxl

-- A node above leaves may be empty itself.
theorem bare_leaves_node {t : KeyTree (n + 2)} (h : Holds D t) (hwf : t.Wf cap low) :
    ∀ x ∈ leaves t, x.2 ≠ [] ∧ (D x.1).Bare x.2 := by
  intro x hx
  obtain ⟨l,hl,hxl⟩ := List.mem_flatten.1 hx
  obtain ⟨k,hk,rfl⟩ := List.mem_map.1 hl
  exact bare_leaves (h.2 k hk) (hwf.2.2.2 k hk) x hxl

theorem bare_leaves_plug {p : KeyPath n m} (hn : n ≠ 0) (hp : PathHolds D p c) (hwf : p.Wf cap) {t : KeyTree n}
    (ht : ∀ x ∈ leaves t, x.2 ≠ [] ∧ (D x.1).Bare x.2) :
    ∀ x ∈ leaves (p.plug t), x.2 ≠ [] ∧ (D x.1).Bare x.2 := by
  induction p generalizing c with
  | root => exact ht
  | @step n m g q ih =>
      refine ih (Nat.succ_ne_zero n) hp.2 hwf.2 fun x hx => ?_
      obtain ⟨n,rfl⟩ := Nat.exists_eq_succ_of_ne_zero hn
      obtain ⟨l,hl,hxl⟩ := List.mem_flatten.1 hx
      obtain ⟨k,hk,rfl⟩ := List.mem_map.1 hl
      rcases List.mem_append.1 hk with hk | hk
      · exact bare_leaves (hp.1.2 k (List.mem_append_left _ hk)) (hwf.1.2.2 k (List.mem_append_left _ hk)) x hxl
      · rcases List.mem_cons.1 hk with rfl | hk
        · exact ht x hxl
        · exact bare_leaves (hp.1.2 k (List.mem_append_right _ hk)) (hwf.1.2.2 k (List.mem_append_right _ hk)) x hxl

end Leaves

section Mend

variable [Build] {m : Nat} {s s' : St} {fs os : List Int} {c : Int} {es l r : List KeyEnt} {e : KeyEnt}
  {f : KeyFrame 1} {p : KeyPath 2 m}

-- `bjnblk`, and `balblk` where that has joined nothing.
def joinOrBalance : BT Int := do
  let cblk ← bjnblk
  if cblk = ZNULL then balblk
  return cblk

theorem mergeUp_eq : mergeUp = joinOrBalance >>= fun cblk => bdemteLoop FUEL cblk := by
  unfold mergeUp joinOrBalance
  rw [bind_assoc]
  refine congrArg (bjnblk >>= ·) (funext fun cblk => ?_)
  by_cases hc : cblk = ZNULL <;> simp [hc]

-- What is left of the subtree over the leaf `c`, which held `es`, when `b` is the block it was joined in.
structure Mended (s' : St) (f : KeyFrame 1) (p : KeyPath 2 m) (c : Int) (es : List KeyEnt) (fs os : List Int) (b : Int)
    (t : KeyTree 2) (fs' : List Int) : Prop where
  index : Index s' (p.plug t) fs' os
  link : t.link = f.id
  wf : t.Wf ZMXKEY (if b = ZNULL then 1 else 0)
  inorder : t.inorder = (f.fill (leaf c es)).inorder
  same : b = ZNULL → fs' = fs ∧ (p.plug t).ids.Perm (one p f c es).ids
  freed : b ≠ ZNULL → ∃ L d R, f.lk.map BTree.link ++ c :: f.rk.map BTree.link = L ++ b :: d :: R ∧
    (Node.kids t).map BTree.link = L ++ b :: R ∧ fs' = d :: fs

omit [Build] in
theorem fill_eq_fillTwo {g : KeyFrame 1} {a b : Int} {la lb : List KeyEnt}
    (h : f.fill (leaf c es) = g.fillTwo (leaf a la) e (leaf b lb)) : f.id = g.id ∧ f.size = g.size + 1 ∧
      f.lk.map BTree.link ++ c :: f.rk.map BTree.link = g.lk.map BTree.link ++ a :: b :: g.rk.map BTree.link := by
  have hents : f.le ++ f.re = g.le ++ e :: g.re := congrArg Node.ents h
  have hkids : f.lk ++ leaf c es :: f.rk = g.lk ++ leaf a la :: leaf b lb :: g.rk := congrArg Node.kids h
  refine ⟨congrArg Node.id h,?_,?_⟩
  · have := congrArg List.length hents
    simp only [List.length_append, List.length_cons] at this
    simp only [Frame.size]
    omega
  · simpa using congrArg (List.map BTree.link) hkids

-- The only entry over two leaves goes with one of them.
def Merges (f : KeyFrame 1) (es : List KeyEnt) : Prop :=
  f.size = 1 ∧ ∀ u ∈ f.beside, es.length + u.width + ZTHRES < ZMXKEY

theorem merges_of_fill {g : KeyFrame 1} {a b : Int} {la lb : List KeyEnt}
    (h : f.fill (leaf c es) = g.fillTwo (leaf a la) e (leaf b lb)) (hg : g.le ++ g.re = [])
    (hlen : la.length + lb.length + ZTHRES < ZMXKEY) : Merges f es := by
  obtain ⟨-,hsize,-⟩ := fill_eq_fillTwo h
  obtain ⟨hle,hre⟩ := List.append_eq_nil_iff.1 hg
  have hkids : f.lk ++ leaf c es :: f.rk = g.lk ++ leaf a la :: leaf b lb :: g.rk := congrArg Node.kids h
  rw [g.lk_nil hle, g.rk_nil hre, List.nil_append] at hkids
  refine ⟨by rw [hsize, Frame.size, hle, hre]; rfl,fun u hu => ?_⟩
  have hents : ∀ {d : Int} {l : List KeyEnt} {t : KeyTree 1}, leaf d l = t → t.width = l.length := by
    rintro d l t rfl
    rfl
  rcases hlk : f.lk with _ | ⟨k,lk⟩
  · rw [hlk, List.nil_append, List.cons.injEq] at hkids
    rw [Frame.beside, hlk, hkids.2] at hu
    obtain rfl : leaf b lb = u := by simpa using hu
    have hes : es.length = la.length := (hents hkids.1).symm
    change es.length + lb.length + ZTHRES < ZMXKEY
    omega
  · rw [hlk, List.cons_append, List.cons.injEq] at hkids
    obtain ⟨hka,hrest⟩ := hkids
    have hlen' := congrArg List.length hrest
    simp only [List.length_append, List.length_cons, List.length_nil] at hlen'
    obtain rfl : lk = [] := List.length_eq_zero_iff.1 (by omega)
    rw [List.nil_append, List.cons.injEq] at hrest
    rw [Frame.beside, hlk] at hu
    obtain rfl : k = u := by simpa using hu
    have hes : es.length = lb.length := (hents hrest.1).symm
    have hku : k.width = la.length := hents hka.symm
    omega

theorem Joined.mended {b : Int} (h : Joined s' f p c es fs os b) (hf : f.Wf ZMXKEY 1) (hb : b ≠ ZNULL) :
    ∃ t fs', Mended s' f p c es fs os b t fs' ∧ (fs' ++ (p.plug t).ids).Perm (fs ++ (one p f c es).ids) ∧
      (Node.ents t = [] → Merges f es) := by
  obtain ⟨g,la,x,d,lb,heq,hidx,hlen,hk⟩ := h
  obtain ⟨hid,hsize,hlinks⟩ := fill_eq_fillTwo heq
  refine ⟨g.fill (leaf b (la ++ x :: lb)),d :: fs,⟨hidx,hid.symm,?_,?_,fun h0 => absurd h0 hb,fun _ =>
    ⟨g.lk.map BTree.link,d,g.rk.map BTree.link,hlinks,?_,rfl⟩⟩,?_,fun hnil => merges_of_fill heq hnil hlen⟩
  · rw [if_neg hb, Frame.wf_fill_iff, wf_leaf]
    have := hf.2.1
    refine ⟨⟨Nat.zero_le _,by omega,hk⟩,?_⟩
    simp only [List.length_append, List.length_cons]
    omega
  · rw [heq, g.inorder_fill, g.inorder_fillTwo, inorder_leaf, inorder_leaf, inorder_leaf]
  · change (g.lk ++ leaf b (la ++ x :: lb) :: g.rk).map BTree.link = _
    simp
  · rw [one, heq]
    refine (perm_behind d fs).symm.trans (List.Perm.append_left fs ?_)
    exact (ids_one.cons d).trans ((List.Perm.swap b d _).trans ids_pair.symm)

theorem Balanced.mended (h : Balanced s' f p c es fs os) (hf : f.Wf ZMXKEY 1) :
    ∃ t fs', Mended s' f p c es fs os ZNULL t fs' := by
  obtain ⟨g,a,la,x,b,lb,la',x',lb',heq,hidx,hsame,hla,hlb,hca,hcb,hk⟩ := h
  obtain ⟨hid,hsize,-⟩ := fill_eq_fillTwo heq
  refine ⟨g.fillTwo (leaf a la') x' (leaf b lb'),fs,hidx,hid.symm,?_,?_,fun _ => ⟨rfl,?_⟩,fun h0 => absurd rfl h0⟩
  · have hcap := hf.2.1
    have hla1 := List.length_pos_iff.2 hla
    have hlb1 := List.length_pos_iff.2 hlb
    rw [if_pos rfl, Frame.fillTwo, BTree.wf_node]
    have hsz : (g.le ++ x' :: g.re).length = g.size + 1 := by
      simp only [Frame.size, List.length_append, List.length_cons]
      omega
    refine ⟨by omega,by omega,?_,fun k hm => ?_⟩
    · simp only [List.length_append, List.length_cons, g.hl, g.hr]
      omega
    · simp only [List.mem_append, List.mem_cons] at hm
      rcases hm with hm | rfl | rfl | hm
      · exact hk k (List.mem_append_left _ hm)
      · exact wf_leaf.2 ⟨hla1,hca⟩
      · exact wf_leaf.2 ⟨hlb1,hcb⟩
      · exact hk k (List.mem_append_right _ hm)
  · rw [heq, g.inorder_fillTwo, g.inorder_fillTwo, inorder_leaf, inorder_leaf, inorder_leaf, inorder_leaf, hsame]
  · rw [one, heq]
    exact ids_pair.trans ids_pair.symm

theorem Worn.mended (h : Worn s f p c es fs os) (hl : Tier f c es) (hne : es ≠ []) :
    Mended s f p c es fs os ZNULL (f.fill (leaf c es)) fs := by
  refine ⟨h.index,rfl,?_,rfl,fun _ => ⟨rfl,.refl _⟩,fun h0 => absurd rfl h0⟩
  rw [if_pos rfl, Frame.wf_fill_iff, wf_leaf]
  exact ⟨hl.wf,List.length_pos_iff.2 hne,hl.length.le⟩

theorem Worn.exec_joinOrBalance (h : Worn s f p c es fs os) (hl : Tier f c es) (hcap : 8 ≤ ZMXKEY)
    (hroom : (down (Path.step f p)).length ≤ STKMAX) :
    ∃ b s' t fs', exec Btlib.joinOrBalance s = .done (b, s') ∧ Mended s' f p c es fs os b t fs' ∧ Undisturbed s s' os ∧
      (fs' ++ (p.plug t).ids).Perm (fs ++ (one p f c es).ids) ∧
      (b ≠ ZNULL → s'.ctx.lf.lfblk = f.id ∧ s'.ctx.stk = down p ∧ (Node.ents t = [] → Merges f es)) := by
  obtain ⟨b,s1,hrun,hst1,⟨hb,hj,hblk,hstk⟩ | ⟨rfl,h1,hright,hleft⟩⟩ := h.bjnblk hl hroom
  · obtain ⟨t,fs',hm,hperm,hmerge⟩ := hj.mended hl.wf hb
    refine ⟨b,s1,t,fs',?_,hm,hst1,hperm,fun _ => ⟨hblk,hstk,hmerge⟩⟩
    unfold Btlib.joinOrBalance
    refine (exec_then hrun).trans ?_
    rw [if_neg hb]
    rfl
  · obtain ⟨s2,hrun2,hst2,hbal⟩ := h1.balblk hl hcap hroom
    -- no block goes where nothing is joined
    have hkeep : ∀ {t fs'}, Mended s2 f p c es fs os ZNULL t fs' →
        (fs' ++ (p.plug t).ids).Perm (fs ++ (one p f c es).ids) := fun hm => by
      obtain ⟨rfl,hids⟩ := hm.same rfl
      exact hids.append_left _
    have hall : exec Btlib.joinOrBalance s = .done (ZNULL, s2) := by
      unfold Btlib.joinOrBalance
      refine (exec_then hrun).trans ?_
      rw [if_pos rfl]
      exact exec_then hrun2
    rcases hbal with hbal | ⟨h2,hright2,hleft2⟩
    · obtain ⟨t,fs',hm⟩ := hbal.mended hl.wf
      exact ⟨ZNULL,s2,t,fs',hall,hm,hst1.trans hst2,hkeep hm,fun h0 => absurd rfl h0⟩
    · suffices hne : es ≠ [] from
        ⟨ZNULL,s2,_,fs,hall,h2.mended hl hne,hst1.trans hst2,hkeep (h2.mended hl hne),fun h0 => absurd rfl h0⟩
      rintro rfl
      have hsize := hl.wf.1
      rw [Frame.size] at hsize
      rcases f.right_cases with hre | ⟨g,x,u,rfl⟩
      · rcases f.left_cases with hle | ⟨g,x,u,rfl⟩
        · simp [hre, hle] at hsize
        · have hu : u ∈ (g.withLeft x u).lk.getLast? := by simp [Frame.withLeft]
          have h0 := hleft u hu
          have h2 := hleft2 u hu
          simp only [List.length_nil, ZTHRES] at h0 h2
          omega
      · have hu : u ∈ (g.withRight x u).rk.head? := rfl
        have h0 := hright u hu
        have h2 := hright2 u hu
        simp only [List.length_nil, ZTHRES] at h0 h2
        omega

theorem Worn.joinOrBalance (h : Worn s f p c es fs os) (hl : Tier f c es) (hcap : 8 ≤ ZMXKEY)
    (hroom : (down (Path.step f p)).length ≤ STKMAX) :
    ∃ b s' t fs', exec Btlib.joinOrBalance s = .done (b, s') ∧ Mended s' f p c es fs os b t fs' := by
  obtain ⟨b,s',t,fs',hrun,hm,-⟩ := h.exec_joinOrBalance hl hcap hroom
  exact ⟨b,s',t,fs',hrun,hm⟩

-- Whatever leaf below the root has lost an entry, the tree is in order again: nothing else is lost, no block
-- holds too much, no leaf is empty, and the parent only where two leaves were joined.
theorem removed_mended (hcap : 8 ≤ ZMXKEY) (h : Index s ((Path.step f p).plug (leaf c (l ++ e :: r))) fs os)
    (hwf : ((Path.step f p).plug (leaf c (l ++ e :: r))).RootWf ZMXKEY)
    (hsort : Sorted KeyEnt.key ((Path.step f p).plug (leaf c (l ++ e :: r))).inorder)
    (hblk : s.ctx.lf.lfblk = c) (hpos : s.ctx.lf.lfpos = l.length) (hstk : s.ctx.stk = down (Path.step f p))
    (hroom : (down (Path.step f p)).length ≤ STKMAX) :
    ∃ b s' t fs', exec (do
        let lf := (← get).lf
        bremky lf.lfblk lf.lfpos
        joinOrBalance) s = .done (b, s') ∧ Mended s' f p c (l ++ r) fs os b t fs' ∧
      (p.plug t).inorder = ((Path.step f p).plug (leaf c (l ++ r))).inorder ∧ p.Wf ZMXKEY ∧
      ∀ x ∈ leaves (p.plug t), x.2 ≠ [] ∧ (s'.disk.block x.1).Bare x.2 := by
  obtain ⟨⟨hf,hp⟩,hc⟩ := (Path.rootWf_plug_iff _ _).1 hwf
  rw [show p.floor = 1 by cases p <;> rfl] at hf
  obtain ⟨-,hlen⟩ := wf_leaf.1 hc
  simp only [List.length_append, List.length_cons] at hlen
  -- the leaf once its entry is gone
  obtain ⟨-,-,-,hleaf⟩ := holds_one.1 h.holds
  have hbare : (s.disk.block c).Bare (l ++ e :: r) := bare_of_holds hleaf (by simp)
  have hrem := exec_bremky (s := s) (h.has (ids_one.mem_iff.2 List.mem_cons_self)) l.length
  have ht := (Turned.refl s [c]).put (List.mem_singleton_self c) ((s.disk.block c).remky_sameInfo l.length)
  have hbare' : ((s.disk.put c ((s.disk.block c).remky l.length)).block c).Bare (l ++ r) := by
    rw [Disk.block_put, Function.update_self]
    exact hbare.remky
  have hworn : Worn { s with disk := s.disk.put c ((s.disk.block c).remky l.length) } f p c (l ++ r) fs os :=
    ⟨h.wear ht hbare',hbare',hblk,hstk⟩
  have hlevel : Tier f c (l ++ r) := by
    refine ⟨hf,?_,by rw [List.length_append]; omega⟩
    rw [Path.plug_step, p.inorder_plug, f.inorder_fill, inorder_leaf] at hsort
    have hfill : Sorted KeyEnt.key (f.left ++ l ++ e :: (r ++ f.right)) := by simpa using hsort.left.right
    rw [f.inorder_fill, inorder_leaf]
    simpa using hfill.remove
  obtain ⟨b,s',t,fs',hrun,hm⟩ := hworn.joinOrBalance hlevel hcap hroom
  refine ⟨b,s',t,fs',?_,hm,?_,hp,?_⟩
  · refine (exec_then (exec_get _)).trans ?_
    dsimp only
    rw [hblk, hpos]
    exact (exec_then hrem).trans hrun
  · rw [Path.plug_step, p.inorder_plug, p.inorder_plug, hm.inorder]
  · have hholds := hm.index.holds
    rw [holds_plug_iff] at hholds
    exact bare_leaves_plug (by decide) hholds.1 hp (bare_leaves_node hholds.2 hm.wf)

end Mend

section Run

attribute [local instance] smallBuild

def lone (k : Byte) : KeyEnt := ⟨[k],7,ZNULL⟩

-- A root of one key over two leaves of one key each, with the last found position on the left leaf.
def leftOfTwo : KeyFrame 1 := ⟨1,[],[],[lone 66],[leaf 3 [lone 67]],rfl,rfl⟩

def twoLeaves : St where
  ctx := { St.fresh.ctx with
    lf := { St.fresh.ctx.lf with lfblk := 2, lfpos := 0 }, stk := [0, 1, ZNULL, ZNULL],
    super := { St.fresh.ctx.super with sblkmx := 4 } }
  disk := ⟨fun b => { Block.fresh (if b = 1 then ZROOT else ZINUSE) ZNULL with
    nkeys := 1, keyblk := fun _ => lone (if b = 1 then 66 else if b = 2 then 65 else 67),
    lnkblk := fun i => if b = 1 then i + 2 else ZNULL },4⟩

theorem index_twoLeaves : Index twoLeaves (one (Path.root : KeyPath 2 2) leftOfTwo 2 [lone 65]) [] [0] := by
  have hids : (one (Path.root : KeyPath 2 2) leftOfTwo 2 [lone 65]).ids = [1,2,3] := by decide
  refine ⟨rfl,holds_one.2 ⟨trivial,⟨rfl,⟨rfl,trivial⟩,⟨rfl,rfl,trivial⟩⟩,fun k hk => ?_,holds_leaf ?_⟩,?_,
    rfl,?_,?_,rfl,?_⟩
  · rw [List.mem_singleton.1 hk]
    exact holds_leaf ⟨rfl,⟨rfl,trivial⟩,⟨rfl,rfl,trivial⟩⟩
  · exact ⟨rfl,⟨rfl,trivial⟩,⟨rfl,rfl,trivial⟩⟩
  · intro b hb
    rfl
  · rw [hids]
    decide
  · rw [hids]
    intro b hb
    simp only [List.nil_append, List.cons_append, List.mem_cons, List.not_mem_nil, or_false] at hb
    rcases hb with rfl | rfl | rfl | rfl <;> exact ⟨by decide,by decide⟩
  · decide

theorem removed_mended_two : ∃ b s' t fs', exec (do
      let lf := (← get).lf
      bremky lf.lfblk lf.lfpos
      joinOrBalance) twoLeaves = .done (b, s') ∧ Mended s' leftOfTwo (.root : KeyPath 2 2) 2 [] [] [0] b t fs' ∧
    t.inorder = [lone 66, lone 67] := by
  have hwf : (one (Path.root : KeyPath 2 2) leftOfTwo 2 [lone 65]).RootWf ZMXKEY := by
    refine (Path.rootWf_plug_iff (Path.step leftOfTwo .root) (leaf 2 [lone 65])).2
      ⟨⟨⟨by decide,by decide,fun k hk => ?_⟩,trivial⟩,wf_leaf.2 ⟨by decide,by decide⟩⟩
    rw [List.mem_singleton.1 hk]
    exact wf_leaf.2 ⟨by decide,by decide⟩
  have hsort : Sorted KeyEnt.key (one (Path.root : KeyPath 2 2) leftOfTwo 2 [lone 65]).inorder := by
    have hin : (one (Path.root : KeyPath 2 2) leftOfTwo 2 [lone 65]).inorder = [lone 65, lone 66, lone 67] := rfl
    rw [hin]
    simp only [Sorted, List.pairwise_cons]
    decide
  obtain ⟨b,s',t,fs',hrun,hm,hin,-,-⟩ := removed_mended (l := []) (r := []) (e := lone 65) (f := leftOfTwo)
    (p := .root) (by decide) index_twoLeaves hwf hsort rfl rfl rfl (by decide)
  exact ⟨b,s',t,fs',hrun,hm,hin⟩

end Run

end Btlib
