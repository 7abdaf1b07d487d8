import Btlib.Mend.Mend
import Btlib.Mend.Demote

namespace Btlib

open Multiway

variable [Build] {m : Nat} {s s' : St} {fs fs' os : List Int} {b c : Int} {es l r : List KeyEnt} {e : KeyEnt} {f : KeyFrame 1}
  {p : KeyPath 2 m} {t : KeyTree 2}

theorem Repaired.trans {m' m'' : Nat} {s'' : St} {t0 : KeyTree m} {t1 : KeyTree m'} {t2 : KeyTree m''} {fs1 fs2 : List Int}
    (h : Undisturbed s s' os) (hin : t1.inorder = t0.inorder) (hperm : (fs1 ++ t1.ids).Perm (fs ++ t0.ids))
    (h' : Repaired s' s'' t1 t2 fs1 fs2 os) : Repaired s s'' t0 t2 fs fs2 os :=
  ⟨h'.index,h'.wf,h'.pos,h'.inorder.trans hin,h.trans h'.undisturbed,h'.blocks.trans hperm⟩

theorem Mended.only (h : Mended s' f p c es fs os b t fs') (hb : b ≠ ZNULL) (hes : Node.ents t = []) :
    (Node.kids t).map BTree.link = [b] := by
  obtain ⟨L,d,R,-,hkids,-⟩ := h.freed hb
  obtain ⟨a,ents,ks,rfl⟩ := t.eq_node
  change ks.map BTree.link = _ at hkids ⊢
  obtain rfl : ents = [] := hes
  have hlen := congrArg List.length hkids
  have hks := (BTree.wf_node.1 h.wf).2.2.1
  simp only [List.length_map, List.length_append, List.length_cons, List.length_nil] at hlen hks
  obtain rfl : L = [] := List.length_eq_zero_iff.1 (by omega)
  obtain rfl : R = [] := List.length_eq_zero_iff.1 (by omega)
  exact hkids

-- `mergeUp` brings the tree over a worn leaf in order, where a node that is emptied meets a sibling with room.
theorem Worn.exec_mergeUp (h : Worn s f p c es fs os) (hl : Tier f c es) (hcap : 8 ≤ ZMXKEY) (hp : p.Wf ZMXKEY)
    (hroom : (down (Path.step f p)).length ≤ STKMAX) (hsort : Sorted KeyEnt.key (one p f c es).inorder)
    (hfuel : p.depth + 2 ≤ FUEL) (hspare : Merges f es → p.Spares ZMXKEY) : ∃ s' m' fs', ∃ t' : KeyTree m',
      exec mergeUp s = .done ((), s') ∧ Repaired s s' (one p f c es) t' fs fs' os := by
  obtain ⟨b,s1,t,fs1,hrun,hm,hst,hperm,hjoin⟩ := h.exec_joinOrBalance hl hcap hroom
  have hin : (p.plug t).inorder = (one p f c es).inorder := by
    rw [one, p.inorder_plug, p.inorder_plug, hm.inorder]
  have hrest : ∃ s' m' fs', ∃ t' : KeyTree m', exec (bdemteLoop FUEL b) s1 = .done ((), s') ∧
      Repaired s1 s' (p.plug t) t' fs1 fs' os := by
    obtain ⟨N,hN⟩ : ∃ N, FUEL = p.depth + N + 2 := ⟨FUEL - p.depth - 2,by omega⟩
    rw [hN]
    by_cases hb : b = ZNULL
    · have hwf := hm.wf
      rw [if_pos hb] at hwf
      have hmh := p.height_eq
      exact ⟨s1,m,fs1,p.plug t,hb ▸ bdemteLoop_null _,hm.index,
        (p.rootWf_plug_iff t).2 ⟨hp,hwf.mono p.floor_le_one⟩,by omega,rfl,.refl s1 os,.refl _⟩
    · obtain ⟨hblk,hstk,hmerge⟩ := hjoin hb
      have hwf := hm.wf
      rw [if_neg hb] at hwf
      have hdrift : Adrift s1 p t fs1 os := ⟨hm.index,hblk.trans hm.link.symm,hstk,hp,hwf,hin ▸ hsort⟩
      exact hdrift.exec_bdemteLoop p.depth N rfl (fun hes => ⟨hm.only hb hes,hb⟩) fun hes => hspare (hmerge hes)
  obtain ⟨s2,m',fs2,t',hloop,hset⟩ := hrest
  refine ⟨s2,m',fs2,t',?_,.trans hst hin hperm hset⟩
  rw [mergeUp_eq]
  exact (exec_then hrun).trans hloop

end Btlib
