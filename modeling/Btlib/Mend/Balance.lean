import Btlib.Mend.Join

namespace Btlib

open Multiway

variable [Build] {m : Nat} {s s' : St} {fs os : List Int} {a b c : Int} {es la lb : List KeyEnt} {e : KeyEnt}
  {f g : KeyFrame 1} {p : KeyPath 2 m}

-- The entries of two leaves next to each other, one of them `c`, are spread over both.
def Balanced (s' : St) (f : KeyFrame 1) (p : KeyPath 2 m) (c : Int) (es : List KeyEnt) (fs os : List Int) : Prop :=
  ∃ (g : KeyFrame 1) (a : Int) (la : List KeyEnt) (e : KeyEnt) (b : Int) (lb la' : List KeyEnt) (x : KeyEnt)
    (lb' : List KeyEnt), f.fill (leaf c es) = g.fillTwo (leaf a la) e (leaf b lb) ∧
      Index s' (pair p g a la' x b lb') fs os ∧ la' ++ x :: lb' = la ++ e :: lb ∧ la' ≠ [] ∧ lb' ≠ [] ∧
      la'.length ≤ ZMXKEY ∧ lb'.length ≤ ZMXKEY ∧ ∀ k ∈ g.lk ++ g.rk, k.Wf ZMXKEY 1

-- `balbk1` between two leaves.
theorem Index.balbk1 (h : Index s (pair p g a la e b lb) fs os) (ha : (s.disk.block a).Bare la)
    (hb : (s.disk.block b).Bare lb) (hblk : s.ctx.lf.lfblk = g.id) (hpos : s.ctx.lf.lfpos = g.le.length)
    (hsize : g.size < ZMXKEY) (hsort : Sorted KeyEnt.key (la ++ e :: lb)) (hcap : 8 ≤ ZMXKEY) (hla : la.length ≤ ZMXKEY)
    (hlb : lb.length ≤ ZMXKEY) (hd : ZMXKEY / 2 < ((la.length : Int) - lb.length).natAbs) :
    ∃ s' la' x lb', exec (Btlib.balbk1 a b (la.length - lb.length) e) s = .done ((), s') ∧
      Undisturbed s s' os ∧ Index s' (pair p g a la' x b lb') fs os ∧ la' ++ x :: lb' = la ++ e :: lb ∧ la' ≠ [] ∧ lb' ≠ [] ∧
      la'.length ≤ ZMXKEY ∧ lb'.length ≤ ZMXKEY := by
  obtain ⟨hab,haq,hbq,-,hmem⟩ := h.two_nodup
  obtain ⟨-,hf,-⟩ := holds_pair.1 h.holds
  obtain ⟨s',la',x,lb',hrun,ht,heq,hne⟩ := exec_balbk1 ⟨.refl s _,ha,hb,hf⟩ (h.pair_has (c := g.id) (by simp))
    (h.pair_has (c := a) (by simp)) (h.pair_has (c := b) (by simp)) hab (Ne.symm haq) (Ne.symm hbq) hblk hpos hsize hsort
    hcap hla hlb hd
  exact ⟨s',la',x,lb',hrun,h.undisturbed ht.turned hmem,h.turn ht.turned ht.left ht.right ht.parent,heq,hne⟩

theorem Above.balLeft (h : Above s f p c es fs os) (hl : Tier f c es) (hcap : 8 ≤ ZMXKEY)
    (hroom : (down (Path.step f p)).length ≤ STKMAX) :
    ∃ s', exec (balblk.balLeft c es.length) s = .done ((), s') ∧ Undisturbed s s' os ∧ (Balanced s' f p c es fs os ∨
      Worn s' f p c es fs os ∧
        ∀ u ∈ f.lk.getLast?, (((Node.ents u).length : Int) - es.length).natAbs ≤ ZMXKEY / 2) := by
  have hsize := hl.size_ne
  rcases f.left_cases with hle | ⟨g,e,u,rfl⟩
  · obtain ⟨s',hpush,hw,hst⟩ := h.push hsize hroom
    refine ⟨s',?_,hst,Or.inr ⟨hw,by simp [Frame.lk_nil hle]⟩⟩
    unfold balblk.balLeft
    refine (exec_then (exec_get _)).trans ?_
    rw [if_neg (by rw [h.pos, hle]; decide)]
    exact hpush
  · obtain ⟨hu,hk⟩ := Frame.Wf.of_withLeft _ _ hl.wf
    obtain ⟨a,la,rfl⟩ := eq_leaf hu
    obtain ⟨s1,s2,hlook,hb,hforth,h2,hst1,-,hst2⟩ := h.lookLeft hl
    have hgo : exec (balblk.balLeft c es.length) s = exec (
        if (ZMXKEY / 2 : Nat) < ((la.length : Int) - es.length).natAbs then (do
          balbk1 a c (la.length - es.length) (← get).keyent) else (do
          setPos (· + 1)
          pushParent c)) s1 := by
      unfold balblk.balLeft
      refine (exec_then (exec_get _)).trans ?_
      rw [if_pos (by rw [h.pos, Frame.withLeft, List.length_append, List.length_singleton]; omega)]
      exact hlook _ fun link nkeys => if (ZMXKEY / 2 : Nat) < (nkeys - (es.length : Int)).natAbs then (do
          balbk1 link c (nkeys - es.length) (← get).keyent) else (do
          setPos (· + 1)
          pushParent c)
    rw [hgo]
    by_cases hcond : ZMXKEY / 2 < ((la.length : Int) - es.length).natAbs
    · have hsz := hl.wf.2.1
      rw [Frame.size_withLeft] at hsz
      obtain ⟨s',la',x,lb',hj,hst,hidx,heq,hla',hlb',hca,hcb⟩ := hb.index.balbk1 hb.left hb.right hb.blk hb.pos
        (by omega) hb.sorted hcap (wf_leaf.1 hu).2 hl.length.le hcond
      refine ⟨s',?_,hst1.trans hst,Or.inl ⟨g,a,la,e,c,es,la',x,lb',Frame.fill_withLeft _ _ _ _,hidx,heq,hla',hlb',hca,hcb,hk⟩⟩
      rw [if_pos hcond]
      refine (exec_then (exec_get _)).trans ?_
      rw [hb.keyent]
      exact hj
    · obtain ⟨s',hpush,hw,hst⟩ := h2.push hsize hroom
      refine ⟨s',?_,hst2.trans hst,Or.inr ⟨hw,fun v hv => ?_⟩⟩
      · rw [if_neg hcond]
        exact (exec_then hforth).trans hpush
      · have hlast : v = leaf a la := by
          simpa [Frame.withLeft] using hv.symm
        rw [hlast]
        exact Nat.le_of_not_lt hcond

theorem Worn.balblk (h : Worn s f p c es fs os) (hl : Tier f c es) (hcap : 8 ≤ ZMXKEY)
    (hroom : (down (Path.step f p)).length ≤ STKMAX) :
    ∃ s', exec balblk s = .done ((), s') ∧ Undisturbed s s' os ∧ (Balanced s' f p c es fs os ∨ Worn s' f p c es fs os ∧
        (∀ u ∈ f.rk.head?, ((es.length : Int) - (Node.ents u).length).natAbs ≤ ZMXKEY / 2) ∧
        ∀ u ∈ f.lk.getLast?, (((Node.ents u).length : Int) - es.length).natAbs ≤ ZMXKEY / 2) := by
  obtain ⟨s1,hup,h1,hst1⟩ := h.lookUp hl.size_ne
  have hgo : exec Btlib.balblk s = exec (if (f.le.length : Int) < f.size then (do
      let r ← bsrhlf
      if r.result ≠ 0 then bterr "BALBLK" QBALSE .none
      else
        let nkeys ← bgtinf r.link2 .ZNKEYS
        if (ZMXKEY / 2 : Nat) < ((es.length : Int) - nkeys).natAbs then
          Btlib.balbk1 c r.link2 (es.length - nkeys) (← get).keyent
        else balblk.balLeft c es.length) else balblk.balLeft c es.length) s1 :=
    hup fun cblk lfpos nkeys cnkeys => if lfpos < nkeys then (do
      let r ← bsrhlf
      if r.result ≠ 0 then bterr "BALBLK" QBALSE .none
      else
        let nkeys ← bgtinf r.link2 .ZNKEYS
        if (ZMXKEY / 2 : Nat) < (cnkeys - nkeys).natAbs then
          Btlib.balbk1 cblk r.link2 (cnkeys - nkeys) (← get).keyent
        else balblk.balLeft cblk cnkeys) else balblk.balLeft cblk cnkeys
  rw [hgo]
  rcases f.right_cases with hre | ⟨g,e,u,rfl⟩
  · obtain ⟨s',hrun,hst,hres⟩ := h1.balLeft hl hcap hroom
    refine ⟨s',?_,hst1.trans hst,hres.imp id fun h => ⟨h.1,by simp [Frame.rk_nil hre],h.2⟩⟩
    rw [if_neg (by rw [Frame.size, hre, List.length_nil]; omega)]
    exact hrun
  · obtain ⟨hu,hk⟩ := Frame.Wf.of_withRight _ _ hl.wf
    obtain ⟨b,lb,rfl⟩ := eq_leaf hu
    obtain ⟨s2,hlook,hb,h2,hst2⟩ := h1.lookRight hl
    rw [if_pos (by simp only [Frame.size, Frame.withRight, List.length_cons]; omega)]
    have hgo2 := hlook (bterr "BALBLK" QBALSE .none) fun link nkeys =>
      if (ZMXKEY / 2 : Nat) < ((es.length : Int) - nkeys).natAbs then (do
        Btlib.balbk1 c link (es.length - nkeys) (← get).keyent)
      else balblk.balLeft c es.length
    by_cases hcond : ZMXKEY / 2 < ((es.length : Int) - lb.length).natAbs
    · have hsz := hl.wf.2.1
      rw [Frame.size_withRight] at hsz
      obtain ⟨s',la',x,lb',hj,hst,hidx,heq,hla',hlb',hca,hcb⟩ := hb.index.balbk1 hb.left hb.right hb.blk hb.pos
        (by omega) hb.sorted hcap hl.length.le (wf_leaf.1 hu).2 hcond
      refine ⟨s',hgo2.trans ?_,hst1.trans (hst2.trans hst),Or.inl ⟨g,c,es,e,b,lb,la',x,lb',rfl,hidx,heq,hla',hlb',hca,hcb,hk⟩⟩
      rw [if_pos hcond]
      refine (exec_then (exec_get _)).trans ?_
      rw [hb.keyent]
      exact hj
    · obtain ⟨s',hrun,hst,hres⟩ := h2.balLeft hl hcap hroom
      refine ⟨s',hgo2.trans ?_,hst1.trans (hst2.trans hst),hres.imp id fun h => ⟨h.1,fun v hv => ?_,h.2⟩⟩
      · rw [if_neg hcond]
        exact hrun
      · obtain rfl : leaf b lb = v := Option.some.inj hv
        exact Nat.le_of_not_lt hcond

end Btlib
