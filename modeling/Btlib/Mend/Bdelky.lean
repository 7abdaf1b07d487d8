import Btlib.Index.Plant
import Btlib.Mend.Calls

namespace Btlib

open Multiway

section One

variable [Build] {n : Nat} {s : St} {fs os : List Int} {key : Key} {μ : Key → Option Int}

-- `bdelky` of a key that is there takes it out of the map, of one that is not leaves the map alone. Every block that is no
-- longer in the tree is on the free list, once, and no block of the tree is.
theorem bdelky_takes_out {t : KeyTree n} (hcap : 8 ≤ ZMXKEY) (hw : Writable s) (h : Plain s t fs os μ)
    (hkey : key.length ≤ 31) (hfuel : 2 * t.inorder.length + 3 ≤ FUEL) (hroom : μ key ≠ none → RoomFor key t) :
    (exec (bdelky (some key)) s).Ends (Refused s.ctx.super.scroot) fun r =>
      r.1 = (if μ key = none then QNOKEY else 0) ∧ ∃ (m : Nat) (t' : KeyTree m) (fs' : List Int),
        Plain r.2 t' fs' os (Function.update μ key none) ∧ Keeps s r.2 os ∧
          (∀ b ∈ fs ++ t.ids, b ∉ t'.ids → fs'.count b = 1) ∧ ∀ b ∈ t'.ids, b ∉ fs' := by
  refine (ends_delete hcap hw h hkey hfuel hroom).mono (fun _ _ h => h) fun r hr => ?_
  have hfree : ∀ {m : Nat} {ν : Key → Option Int} {t' : KeyTree m} {fs' : List Int}, Deleted s r.2 t fs os ν t' fs' →
      Plain r.2 t' fs' os ν ∧ Keeps s r.2 os ∧ (∀ b ∈ fs ++ t.ids, b ∉ t'.ids → fs'.count b = 1) ∧
        ∀ b ∈ t'.ids, b ∉ fs' := fun {m ν t' fs'} hd => by
    have hnd := List.nodup_append.1 hd.plain.index.store.nodup
    refine ⟨hd.plain,hd.keeps,fun b hb hnot => ?_,fun b hb hfs => ?_⟩
    · exact List.count_eq_one_of_mem hnd.1 ((List.mem_append.1 (hd.blocks b hb)).resolve_right hnot)
    · exact hnd.2.2 b hfs b (List.mem_append_left os hb) rfl
  obtain ⟨m,t',fs',⟨⟨w,hsome⟩,hcode,hd⟩ | ⟨hnone,hcode,hd⟩⟩ := hr
  · exact ⟨by rw [hcode, if_neg (by simp [hsome])],m,t',fs',hfree hd⟩
  · refine ⟨by rw [hcode, if_pos hnone],m,t',fs',hfree ?_⟩
    rwa [← hnone, Function.update_eq_self]

end One

section Run

local instance besideBuild : Build := build32 200

-- A root over two nodes: one of a single entry with two leaves, and one of `w` entries.
def besideWide (w : Nat) : KeyTree 3 :=
  BTree.node 1 [lone 4]
    [BTree.node 2 [lone 2] [leaf 3 [lone 1],leaf 4 [lone 3]],
      BTree.node 5 ((List.range w).map fun i => lone (Fin.ofNat 256 (6 + 2 * i)))
        ((List.range (w + 1)).map fun i : Nat => leaf (6 + i) [lone (Fin.ofNat 256 (5 + 2 * i))])]

def St.besideWide (w : Nat) : St := St.holding (Btlib.besideWide w) (w + 7)

theorem wf_besideWide {w : Nat} (h1 : 1 ≤ w) (h2 : w ≤ ZMXKEY) : (besideWide w).RootWf ZMXKEY := by
  have hone : 1 ≤ ZMXKEY := by decide
  have hleaf : ∀ (a : Int) (e : KeyEnt), (leaf a [e]).Wf ZMXKEY 1 := fun a e => wf_leaf.2 ⟨le_rfl,hone⟩
  refine BTree.wf_node.2 ⟨by decide,hone,rfl,fun k hk => ?_⟩
  simp only [List.mem_cons, List.not_mem_nil, or_false] at hk
  rcases hk with rfl | rfl
  · refine BTree.wf_node.2 ⟨le_rfl,hone,rfl,fun k hk => ?_⟩
    simp only [List.mem_cons, List.not_mem_nil, or_false] at hk
    rcases hk with rfl | rfl <;> exact hleaf _ _
  · refine BTree.wf_node.2 ⟨by simpa using h1,by simpa using h2,by simp,fun k hk => ?_⟩
    obtain ⟨i,-,rfl⟩ := List.mem_map.1 hk
    exact hleaf _ _

theorem plain_besideWide {w : Nat} (h1 : 1 ≤ w) (h2 : w ≤ ZMXKEY) (hids : (besideWide w).ids.Nodup ∧
    ∀ b ∈ (besideWide w).ids, 0 < b ∧ b < w + 7) (hL : (besideWide w).inorder.Pairwise fun a b => a.key < b.key)
    (hents : ∀ e ∈ (besideWide w).inorder, e.key.length ≤ 31 ∧ e.dup = ZNULL) :
    Plain (St.besideWide w) (besideWide w) [] [0] (entryMap (besideWide w).inorder) :=
  plain_holding (by decide) (wf_besideWide h1 h2) (by omega) hids.2 hids.1 hL (fun e he => (hents e he).1)
    fun e he => (hents e he).2

attribute [local irreducible] exec

theorem bdelky_takes_out_two : ∃ r, exec (bdelky (some [1])) (St.besideWide 2) = .done r ∧ r.1 = 0 ∧
    ∃ (m : Nat) (t' : KeyTree m) (fs' : List Int),
      Plain r.2 t' fs' [0] (Function.update (entryMap (besideWide 2).inorder) [1] none) ∧
        ∀ b ∈ t'.ids, b ∉ fs' := by
  have hp := plain_besideWide (w := 2) (by decide) (by decide) (by decide +kernel) (by decide +kernel) (by decide +kernel)
  have hroom : RoomFor [1] (besideWide 2) := BTree.roomy_of_length hp.wf (by decide +kernel)
  have hw : Writable (St.besideWide 2) := writable_holding _
  have hkey : ([1] : Key).length ≤ 31 := by decide
  have h := bdelky_takes_out (by decide) hw hp hkey (by decide +kernel) fun _ => hroom
  have hdone : (exec (bdelky (some [1])) (St.besideWide 2)).result.isSome = true := by decide +kernel
  obtain ⟨r,hr⟩ := Option.isSome_iff_exists.1 hdone
  have hrun := Prog.Outcome.result_eq_some.1 hr
  rw [hrun] at h
  obtain ⟨hcode,m,t',fs',hp',-,-,hfree⟩ := h
  exact ⟨r,hrun,hcode.trans (by decide +kernel),m,t',fs',hp',hfree⟩

-- The node beside the one that is emptied is full: the key over it is lost, and what was below that key is not found.
theorem not_taken_out_full : Writable (St.besideWide 22) ∧
    Plain (St.besideWide 22) (besideWide 22) [] [0] (entryMap (besideWide 22).inorder) ∧
    entryMap (besideWide 22).inorder [1] = some 7 ∧
    ∃ r, exec (bdelky (some [1])) (St.besideWide 22) = .done r ∧ r.1 = 0 ∧
      ¬ ∃ (m : Nat) (t' : KeyTree m) (fs' : List Int),
        Plain r.2 t' fs' [0] (Function.update (entryMap (besideWide 22).inorder) [1] none) := by
  have hp := plain_besideWide (w := 22) (by decide) (by decide) (by decide +kernel) (by decide +kernel) (by decide +kernel)
  refine ⟨writable_holding _,hp,by decide +kernel,?_⟩
  have hrun : (exec (bdelky (some [1])) (St.besideWide 22)).result.bind (fun r => (exec (bfndky [2]) r.2).result.map
      fun q => (r.1, q.1.1, r.2.ctx.isopen, r.2.ctx.shared, r.2.ctx.super.smode)) =
        some (0, QNOKEY, true, false, 0) := by decide +kernel
  obtain ⟨r,hr,hfind⟩ := Option.bind_eq_some_iff.1 hrun
  obtain ⟨q,hq,hall⟩ := Option.map_eq_some_iff.1 hfind
  simp only [Prod.mk.injEq] at hall
  obtain ⟨hcode,hnokey,hopen,hshared,hmode⟩ := hall
  refine ⟨r,Prog.Outcome.result_eq_some.1 hr,hcode,?_⟩
  rintro ⟨m,t',fs',hp'⟩
  -- a root with the entries of that map would let `bfndky` find the key 2
  have hfew : Few (Function.update (entryMap (besideWide 22).inorder) [1] none) 49 := by
    refine ⟨(besideWide 22).inorder.map KeyEnt.key,by decide +kernel,fun k hk => ?_⟩
    have hk : entryMap (besideWide 22).inorder k ≠ none := by
      rcases eq_or_ne k [1] with rfl | hne
      · rw [Function.update_self] at hk
        exact absurd rfl hk
      · rwa [Function.update_of_ne hne] at hk
    obtain ⟨v,hv⟩ := Option.ne_none_iff_exists'.1 hk
    exact List.mem_map_of_mem ((hp.entries k v).1 hv)
  have hlen := hp'.length_le hfew
  have hfuel : 2 * 49 + 3 ≤ FUEL := by decide
  have hkey : ([2] : Key).length ≤ 31 := by decide
  have hends := ends_find (by decide) ⟨hopen,hshared,hmode⟩ hp' hkey (by omega)
  rw [Prog.Outcome.result_eq_some.1 hq, Prog.Outcome.ends_done] at hends
  have hin : Function.update (entryMap (besideWide 22).inorder) [1] none [2] = some 7 := by decide +kernel
  obtain ⟨-,⟨hnone,-⟩ | ⟨v,-,hv⟩⟩ := hends
  · rw [hin] at hnone
    cases hnone
  · have hne : (0 : Int) ≠ QNOKEY := by decide
    exact absurd ((congrArg Prod.fst hv).symm.trans hnokey) hne

end Run

end Btlib
