import Btlib.Mend.Moves
import Btlib.Theory.Siblings

namespace Btlib

open Multiway

variable [Build] {m : Nat} {s s' : St} {fs os : List Int} {a b c : Int} {es la lb : List KeyEnt} {e : KeyEnt}
  {f g : KeyFrame 1} {p : KeyPath 2 m}

-- The last found position is in the leaf `c`, which has lost an entry, with the way to it on the stack.
structure Worn (s : St) (f : KeyFrame 1) (p : KeyPath 2 m) (c : Int) (es : List KeyEnt) (fs os : List Int) : Prop where
  index : Index s (one p f c es) fs os
  bare : (s.disk.block c).Bare es
  blk : s.ctx.lf.lfblk = c
  stack : s.ctx.stk = down (Path.step f p)

-- The same with the last found position at the parent of `c`.
structure Above (s : St) (f : KeyFrame 1) (p : KeyPath 2 m) (c : Int) (es : List KeyEnt) (fs os : List Int) : Prop where
  index : Index s (one p f c es) fs os
  bare : (s.disk.block c).Bare es
  blk : s.ctx.lf.lfblk = f.id
  pos : s.ctx.lf.lfpos = f.le.length
  stack : s.ctx.stk = down p

-- What the leaves hold that there is a parent of: not too much, and in their order.
structure Tier (f : KeyFrame 1) (c : Int) (es : List KeyEnt) : Prop where
  wf : f.Wf ZMXKEY 1
  sorted : Sorted KeyEnt.key (f.fill (leaf c es)).inorder
  length : es.length < ZMXKEY

theorem Tier.size_ne (h : Tier f c es) : f.size ≠ 0 := by
  have := h.wf.1
  omega

namespace Above

omit [Build] in
theorem keyent (h : Above s f p c es fs os) (ke : KeyEnt) : Above { s with ctx.keyent := ke } f p c es fs os :=
  ⟨h.index.withCtx rfl,h.bare,h.blk,h.pos,h.stack⟩

omit [Build] in
theorem has (h : Above s f p c es fs os) : s.disk.Has f.id ∧ s.disk.Has c :=
  ⟨h.index.has (ids_one.mem_iff.2 (by simp)),h.index.has (ids_one.mem_iff.2 (by simp))⟩

omit [Build] in
theorem nkeys (h : Above s f p c es fs os) : (s.disk.block f.id).nkeys = f.size := by
  obtain ⟨-,hf,-⟩ := holds_one.1 h.index.holds
  rw [hf.nkeys, Frame.size, List.length_append]

omit [Build] in
theorem push (h : Above s f p c es fs os) (hsize : f.size ≠ 0) (hroom : (down (Path.step f p)).length ≤ STKMAX) :
    ∃ s', exec (pushParent c) s = .done ((), s') ∧ Worn s' f p c es fs os ∧ Undisturbed s s' os := by
  simp only [down, List.length_cons] at hroom
  have hlen : s.ctx.stk.length = (down p).length := by rw [h.stack]
  have hp1 := exec_bpush (s := s) (v := s.ctx.lf.lfblk) (by omega)
  have hp2 := exec_bpush (s := { s with ctx.stk := s.ctx.lf.lfblk :: s.ctx.stk }) (v := s.ctx.lf.lfpos) (by
    simp only [List.length_cons]
    omega)
  refine ⟨{ s with ctx.stk := s.ctx.lf.lfpos :: s.ctx.lf.lfblk :: s.ctx.stk, ctx.lf := { s.ctx.lf with lfblk := c } },
    ?_,⟨h.index.withCtx rfl,h.bare,rfl,?_⟩,Undisturbed.same rfl rfl rfl⟩
  · exact (exec_then (exec_get _)).trans ((exec_then hp1).trans ((exec_then hp2).trans (exec_setLf _ _)))
  · simp only [down, framePos, if_neg hsize, h.pos, h.blk, h.stack]

end Above

theorem Worn.lookUp (h : Worn s f p c es fs os) (hsize : f.size ≠ 0) :
    ∃ s', (∀ {α : Type} (k : Int → Int → Int → Int → BT α), exec (do
        let cblk := (← get).lf.lfblk
        pullParent
        let lf := (← get).lf
        let nkeys ← bgtinf lf.lfblk .ZNKEYS
        let cnkeys ← bgtinf cblk .ZNKEYS
        k cblk lf.lfpos nkeys cnkeys) s = exec (k c f.le.length f.size es.length) s') ∧ Above s' f p c es fs os ∧
      Undisturbed s s' os := by
  have hpull := exec_pullParent (s := s) (u := framePos f) (v := f.id) h.stack
  rw [framePos, if_neg hsize] at hpull
  have habove : Above { s with ctx.stk := down p, ctx.lf := { s.ctx.lf with lfblk := f.id, lfpos := f.le.length } }
      f p c es fs os := ⟨h.index.withCtx rfl,h.bare,rfl,rfl,rfl⟩
  have hn := exec_bgtinf habove.has.1 .ZNKEYS
  have hcn := exec_bgtinf habove.has.2 .ZNKEYS
  rw [Block.getInf_ZNKEYS, habove.nkeys] at hn
  rw [Block.getInf_ZNKEYS, habove.bare.nkeys] at hcn
  refine ⟨_,fun k => ?_,habove,Undisturbed.same rfl rfl rfl⟩
  refine (exec_then (exec_get _)).trans ?_
  rw [h.blk]
  refine (exec_then hpull).trans ((exec_then (exec_get _)).trans ?_)
  exact (exec_then hn).trans (exec_then hcn)

omit [Build] in
-- What `bsrhlf` finds between two leaves.
theorem exec_bsrhlf_pair (h : Index s (pair p g a la e b lb) fs os) (hblk : s.ctx.lf.lfblk = g.id)
    (hpos : s.ctx.lf.lfpos = g.le.length) : ∃ o : Srh, o.result = 0 ∧ o.link1 = a ∧ o.link2 = b ∧
      exec bsrhlf s = .done (o, { s with ctx.keyent := e }) := by
  obtain ⟨-,hf,-⟩ := holds_pair.1 h.holds
  exact exec_bsrhlf_at (h.pair_has (c := g.id) (by simp)) hf (by rw [List.length_map, g.hl]) hblk hpos

-- Two leaves next to each other, one of them `c`, are joined in the left one, `r`.
def Joined (s' : St) (f : KeyFrame 1) (p : KeyPath 2 m) (c : Int) (es : List KeyEnt) (fs os : List Int) (r : Int) : Prop :=
  ∃ (g : KeyFrame 1) (la : List KeyEnt) (e : KeyEnt) (b : Int) (lb : List KeyEnt),
    f.fill (leaf c es) = g.fillTwo (leaf r la) e (leaf b lb) ∧ Index s' (one p g r (la ++ e :: lb)) (b :: fs) os ∧
      la.length + lb.length + ZTHRES < ZMXKEY ∧ ∀ k ∈ g.lk ++ g.rk, k.Wf ZMXKEY 1

omit [Build] in
theorem sorted_pair (h : Sorted KeyEnt.key (g.fillTwo (leaf a la) e (leaf b lb)).inorder) :
    Sorted KeyEnt.key (la ++ e :: lb) := by
  rw [g.inorder_fillTwo, inorder_leaf, inorder_leaf] at h
  exact h.left.right

-- The last found position is at the entry between two leaves, which has been read.
structure Amid (s : St) (g : KeyFrame 1) (p : KeyPath 2 m) (a : Int) (la : List KeyEnt) (e : KeyEnt) (b : Int)
    (lb : List KeyEnt) (fs os : List Int) : Prop where
  index : Index s (pair p g a la e b lb) fs os
  left : (s.disk.block a).Bare la
  right : (s.disk.block b).Bare lb
  blk : s.ctx.lf.lfblk = g.id
  pos : s.ctx.lf.lfpos = g.le.length
  keyent : s.ctx.keyent = e
  sorted : Sorted KeyEnt.key (la ++ e :: lb)

namespace Above

theorem lookRight (h : Above s (g.withRight e (leaf b lb)) p c es fs os) (hl : Tier (g.withRight e (leaf b lb)) c es) :
    ∃ s', (∀ {α : Type} (bad : BT α) (k : Int → Int → BT α), exec (do
        let r ← bsrhlf
        if r.result ≠ 0 then bad
        else
          let nkeys ← bgtinf r.link2 .ZNKEYS
          k r.link2 nkeys) s = exec (k b lb.length) s') ∧
      Amid s' g p c es e b lb fs os ∧ Above s' (g.withRight e (leaf b lb)) p c es fs os ∧ Undisturbed s s' os := by
  obtain ⟨hu,-⟩ := Frame.Wf.of_withRight _ _ hl.wf
  have hindex : Index s (pair p g c es e b lb) fs os := h.index
  obtain ⟨-,-,-,-,hhb⟩ := holds_pair.1 hindex.holds
  have hb := bare_of_holds hhb (List.length_pos_iff.1 (wf_leaf.1 hu).1)
  obtain ⟨o,ho,-,ho2,hsrh⟩ := exec_bsrhlf_pair hindex h.blk h.pos
  have hn := exec_bgtinf (s := { s with ctx.keyent := e }) (hindex.pair_has (c := b) (by simp)) .ZNKEYS
  rw [Block.getInf_ZNKEYS, hb.nkeys] at hn
  refine ⟨{ s with ctx.keyent := e },fun bad k => ?_,
    ⟨hindex.withCtx rfl,h.bare,hb,h.blk,h.pos,rfl,sorted_pair (g := g) (a := c) (b := b) hl.sorted⟩,h.keyent e,
    Undisturbed.same rfl rfl rfl⟩
  refine (exec_then hsrh).trans ?_
  rw [if_neg (by rw [ho]; decide), ho2]
  exact exec_then hn

theorem lookLeft (h : Above s (g.withLeft e (leaf a la)) p c es fs os) (hl : Tier (g.withLeft e (leaf a la)) c es) :
    ∃ s' s'', (∀ {α : Type} (bad : BT α) (k : Int → Int → BT α), exec (do
        setPos (· - 1)
        let l ← bsrhlf
        if l.result ≠ 0 then bad
        else
          let nkeys ← bgtinf l.link1 .ZNKEYS
          k l.link1 nkeys) s = exec (k a la.length) s') ∧ Amid s' g p a la e c es fs os ∧
      exec (setPos (· + 1)) s' = .done ((), s'') ∧ Above s'' (g.withLeft e (leaf a la)) p c es fs os ∧ Undisturbed s s' os ∧
      s'.ctx.stk = down p ∧ Undisturbed s s'' os := by
  obtain ⟨hu,-⟩ := Frame.Wf.of_withLeft _ _ hl.wf
  have hindex : Index s (pair p g a la e c es) fs os := by
    have := h.index
    rwa [one, Frame.fill_withLeft] at this
  have hsort : Sorted KeyEnt.key (la ++ e :: es) := by
    have := hl.sorted
    rw [Frame.fill_withLeft] at this
    exact sorted_pair this
  obtain ⟨-,-,-,hha,-⟩ := holds_pair.1 hindex.holds
  have ha := bare_of_holds hha (List.length_pos_iff.1 (wf_leaf.1 hu).1)
  have hposg : s.ctx.lf.lfpos - 1 = g.le.length := by
    rw [h.pos, Frame.withLeft, List.length_append]
    simp
  have hback := exec_setLf s fun lf => { lf with lfpos := lf.lfpos - 1 }
  obtain ⟨o,ho,ho1,-,hsrh⟩ := exec_bsrhlf_pair
    (s := { s with ctx.lf := { s.ctx.lf with lfpos := s.ctx.lf.lfpos - 1 } }) (hindex.withCtx rfl) h.blk hposg
  have hn := exec_bgtinf (s := { s with ctx.lf := { s.ctx.lf with lfpos := s.ctx.lf.lfpos - 1 }, ctx.keyent := e })
    (hindex.pair_has (c := a) (by simp)) .ZNKEYS
  rw [Block.getInf_ZNKEYS, ha.nkeys] at hn
  refine ⟨{ s with ctx.lf := { s.ctx.lf with lfpos := s.ctx.lf.lfpos - 1 }, ctx.keyent := e },
    { s with ctx.lf := { s.ctx.lf with lfpos := s.ctx.lf.lfpos - 1 + 1 }, ctx.keyent := e },fun bad k => ?_,
    ⟨hindex.withCtx rfl,ha,h.bare,h.blk,hposg,rfl,hsort⟩,exec_setLf _ _,
    ⟨h.index.withCtx rfl,h.bare,h.blk,(sub_add_cancel _ _).trans h.pos,h.stack⟩,
    Undisturbed.same rfl rfl rfl,h.stack,Undisturbed.same rfl rfl rfl⟩
  refine (exec_then hback).trans ((exec_then hsrh).trans ?_)
  rw [if_neg (by rw [ho]; decide), ho1]
  exact exec_then hn

end Above

theorem Above.joinLeft (h : Above s f p c es fs os) (hl : Tier f c es)
    (hroom : (down (Path.step f p)).length ≤ STKMAX) :
    ∃ r s', exec (bjnblk.joinLeft c es.length) s = .done (r, s') ∧ Undisturbed s s' os ∧
      (r ≠ ZNULL ∧ Joined s' f p c es fs os r ∧ s'.ctx.lf.lfblk = f.id ∧ s'.ctx.stk = down p ∨
      r = ZNULL ∧ Worn s' f p c es fs os ∧
        ∀ u ∈ f.lk.getLast?, ZMXKEY ≤ es.length + (Node.ents u).length + ZTHRES) := by
  have hsize := hl.size_ne
  rcases f.left_cases with hle | ⟨g,e,u,rfl⟩
  · obtain ⟨s',hpush,hw,hst⟩ := h.push hsize hroom
    refine ⟨ZNULL,s',?_,hst,Or.inr ⟨rfl,hw,by simp [Frame.lk_nil hle]⟩⟩
    unfold bjnblk.joinLeft
    refine (exec_then (exec_get _)).trans ?_
    rw [if_neg (by rw [h.pos, hle]; decide)]
    exact exec_then hpush
  · obtain ⟨hu,hk⟩ := Frame.Wf.of_withLeft _ _ hl.wf
    obtain ⟨a,la,rfl⟩ := eq_leaf hu
    obtain ⟨s1,s2,hlook,hb,hforth,h2,hst1,hstk1,hst2⟩ := h.lookLeft hl
    have hgo : exec (bjnblk.joinLeft c es.length) s = exec (if (es.length : Int) + la.length < ZMXKEY - ZTHRES then (do
        bjoin a c (← get).keyent
        return a) else (do
        setPos (· + 1)
        pushParent c
        return ZNULL)) s1 := by
      unfold bjnblk.joinLeft
      refine (exec_then (exec_get _)).trans ?_
      rw [if_pos (by rw [h.pos, Frame.withLeft, List.length_append, List.length_singleton]; omega)]
      exact hlook _ fun link nkeys => if (es.length : Int) + nkeys < ZMXKEY - ZTHRES then (do
        bjoin link c (← get).keyent
        return link) else (do
        setPos (· + 1)
        pushParent c
        return ZNULL)
    rw [hgo]
    by_cases hcond : (es.length : Int) + la.length < ZMXKEY - ZTHRES
    · obtain ⟨s',hj,hidx,hlf,hstk,hst⟩ := exec_bjoin hb.index hb.left hb.right hb.blk hb.pos (by omega) hb.sorted
      refine ⟨a,s',?_,hst1.trans hst,Or.inl ⟨?_,⟨g,la,e,c,es,Frame.fill_withLeft _ _ _ _,hidx,by omega,hk⟩,
        (congrArg Lf.lfblk hlf).trans hb.blk,hstk.trans hstk1⟩⟩
      · rw [if_pos hcond]
        refine (exec_then (exec_get _)).trans ?_
        rw [hb.keyent]
        exact exec_then hj
      · exact (hb.index.pair_has (c := a) (by simp)).ne_null
    · obtain ⟨s',hpush,hw,hst⟩ := h2.push hsize hroom
      refine ⟨ZNULL,s',?_,hst2.trans hst,Or.inr ⟨rfl,hw,fun v hv => ?_⟩⟩
      · rw [if_neg hcond]
        refine (exec_then hforth).trans ?_
        exact exec_then hpush
      · have hlast : v = leaf a la := by
          simpa [Frame.withLeft] using hv.symm
        rw [hlast]
        change ZMXKEY ≤ es.length + la.length + ZTHRES
        omega

theorem Worn.bjnblk (h : Worn s f p c es fs os) (hl : Tier f c es) (hroom : (down (Path.step f p)).length ≤ STKMAX) :
    ∃ r s', exec bjnblk s = .done (r, s') ∧ Undisturbed s s' os ∧
      (r ≠ ZNULL ∧ Joined s' f p c es fs os r ∧ s'.ctx.lf.lfblk = f.id ∧ s'.ctx.stk = down p ∨
      r = ZNULL ∧ Worn s' f p c es fs os ∧
        (∀ u ∈ f.rk.head?, ZMXKEY ≤ es.length + (Node.ents u).length + ZTHRES) ∧
        ∀ u ∈ f.lk.getLast?, ZMXKEY ≤ es.length + (Node.ents u).length + ZTHRES) := by
  obtain ⟨s1,hup,h1,hst1⟩ := h.lookUp hl.size_ne
  have hgo : exec Btlib.bjnblk s = exec (if (f.le.length : Int) < f.size then (do
      let r ← bsrhlf
      if r.result ≠ 0 then
        bterr "BJNBLK" QJNSE .none
        return c
      else
        let nkeys ← bgtinf r.link2 .ZNKEYS
        if (es.length : Int) + nkeys < ZMXKEY - ZTHRES then
          bjoin c r.link2 (← get).keyent
          return c
        else bjnblk.joinLeft c es.length) else bjnblk.joinLeft c es.length) s1 :=
    hup fun cblk lfpos nkeys cnkeys => if lfpos < nkeys then (do
      let r ← bsrhlf
      if r.result ≠ 0 then
        bterr "BJNBLK" QJNSE .none
        return cblk
      else
        let nkeys ← bgtinf r.link2 .ZNKEYS
        if cnkeys + nkeys < ZMXKEY - ZTHRES then
          bjoin cblk r.link2 (← get).keyent
          return cblk
        else bjnblk.joinLeft cblk cnkeys) else bjnblk.joinLeft cblk cnkeys
  rw [hgo]
  rcases f.right_cases with hre | ⟨g,e,u,rfl⟩
  · obtain ⟨r,s',hrun,hst,hres⟩ := h1.joinLeft hl hroom
    refine ⟨r,s',?_,hst1.trans hst,hres.imp id fun h => ⟨h.1,h.2.1,by simp [Frame.rk_nil hre],h.2.2⟩⟩
    rw [if_neg (by rw [Frame.size, hre, List.length_nil]; omega)]
    exact hrun
  · obtain ⟨hu,hk⟩ := Frame.Wf.of_withRight _ _ hl.wf
    obtain ⟨b,lb,rfl⟩ := eq_leaf hu
    obtain ⟨s2,hlook,hb,h2,hst2⟩ := h1.lookRight hl
    rw [if_pos (by simp only [Frame.size, Frame.withRight, List.length_cons]; omega)]
    have hgo2 := hlook (do
      bterr "BJNBLK" QJNSE .none
      return c) fun link nkeys => if (es.length : Int) + nkeys < ZMXKEY - ZTHRES then (do
        bjoin c link (← get).keyent
        return c) else bjnblk.joinLeft c es.length
    by_cases hcond : (es.length : Int) + lb.length < ZMXKEY - ZTHRES
    · obtain ⟨s',hj,hidx,hlf,hstk,hst⟩ := exec_bjoin hb.index hb.left hb.right hb.blk hb.pos (by omega) hb.sorted
      refine ⟨c,s',hgo2.trans ?_,hst1.trans (hst2.trans hst),Or.inl ⟨h1.has.2.ne_null,⟨g,es,e,b,lb,rfl,hidx,by omega,hk⟩,
        (congrArg Lf.lfblk hlf).trans hb.blk,hstk.trans h2.stack⟩⟩
      rw [if_pos hcond]
      refine (exec_then (exec_get _)).trans ?_
      rw [hb.keyent]
      exact exec_then hj
    · obtain ⟨r,s',hrun,hst,hres⟩ := h2.joinLeft hl hroom
      refine ⟨r,s',hgo2.trans ?_,hst1.trans (hst2.trans hst),hres.imp id fun h => ⟨h.1,h.2.1,fun v hv => ?_,h.2.2⟩⟩
      · rw [if_neg hcond]
        exact hrun
      · obtain rfl : leaf b lb = v := Option.some.inj hv
        change ZMXKEY ≤ es.length + lb.length + ZTHRES
        omega

end Btlib
