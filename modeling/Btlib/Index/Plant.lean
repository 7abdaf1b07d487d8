import Mathlib.Data.List.Nodup
import Btlib.Index.Refine

namespace Btlib

open Multiway

variable {n m : Nat} {D : Int → Block} {size : Int} {k : Key} {v : Int} {l : List KeyEnt}

-- The map of a list of entries.
def entryMap (l : List KeyEnt) (k : Key) : Option Int := (l.find? fun e => decide (e.key = k)).map KeyEnt.val

theorem entryMap_eq_some (hL : Sorted KeyEnt.key l) (hd : ∀ e ∈ l, e.dup = ZNULL) :
    entryMap l k = some v ↔ ⟨k,v,ZNULL⟩ ∈ l := by
  induction l with
  | nil => simp [entryMap]
  | cons e l ih =>
      have hl : Sorted KeyEnt.key l := (List.pairwise_cons.1 hL).2
      have ih := ih hl fun x hx => hd x (List.mem_cons_of_mem _ hx)
      rw [List.mem_cons, ← ih, entryMap, List.find?_cons]
      by_cases he : e.key = k
      · have hnot : entryMap l k ≠ some v := fun hc => by
          have hlt : e.key < k := (List.pairwise_cons.1 hL).1 _ (ih.1 hc)
          exact hlt.ne he
        have hdup := hd e List.mem_cons_self
        simp only [he, decide_true, Option.map_some, Option.some.injEq, hnot, or_false]
        obtain ⟨k',v',d'⟩ := e
        simp only at he hdup
        simp [he, hdup, eq_comm]
      · have hne : (⟨k,v,ZNULL⟩ : KeyEnt) ≠ e := fun hc => he (by rw [← hc])
        simp only [he, decide_false, hne, false_or]
        rfl

-- The block that says what a node holds.
def nodeBlock (es : List KeyEnt) (ks : List (KeyTree n)) : Block :=
  { Block.fresh ZINUSE ZNULL with
    nkeys := es.length
    keyblk := fun i => es.getD i.toNat ⟨[],0,0⟩
    lnkblk := fun i => (nodeLinks es ks).getD i.toNat ZNULL }

-- The blocks of a tree.
def nodeBlocks : {n : Nat} → KeyTree n → List (Int × Block)
  | 0, _ => []
  | _ + 1, t => (Node.id t, nodeBlock (Node.ents t) (Node.kids t)) :: ((Node.kids t).map nodeBlocks).flatten

theorem reads_getD {α : Type} {d : α} {l : List α} : Reads (fun i => l.getD i.toNat d) 0 l := by
  have h : ∀ r : List α, Reads (fun i => (r ++ l).getD i.toNat d) r.length l := by
    induction l with
    | nil => exact fun r => trivial
    | cons a l ih =>
        intro r
        refine ⟨by simp,?_⟩
        have := ih (r ++ [a])
        simpa using this
  exact h []

theorem shows_nodeBlock (es : List KeyEnt) (ks : List (KeyTree n)) : (nodeBlock es ks).Shows es (nodeLinks es ks) :=
  ⟨rfl,reads_getD,reads_getD⟩

theorem map_fst_nodeBlocks (t : KeyTree n) : (nodeBlocks t).map Prod.fst = t.ids := by
  induction n with
  | zero => rfl
  | succ n ih =>
      obtain ⟨b,es,ks,rfl⟩ := t.eq_node
      rw [BTree.ids_node, nodeBlocks, List.map_cons, List.map_flatten, List.map_map]
      congr 2
      exact List.map_congr_left fun k _ => ih k

theorem lookup_of_mem {ps : List (Int × Block)} (hnd : (ps.map Prod.fst).Nodup) {p : Int × Block} (hp : p ∈ ps) :
    ps.lookup p.1 = some p.2 := by
  induction ps with
  | nil => exact absurd hp List.not_mem_nil
  | cons q ps ih =>
      rw [List.map_cons, List.nodup_cons] at hnd
      obtain ⟨a,x⟩ := q
      rcases List.mem_cons.1 hp with rfl | hp
      · simp
      · have hne : p.1 ≠ a := fun hc => hnd.1 (List.mem_map.2 ⟨p,hp,hc⟩)
        rw [List.lookup_cons, beq_false_of_ne hne]
        exact ih hnd.2 hp

-- Whatever shows the words of its blocks holds the tree.
theorem holds_of_nodeBlocks {t : KeyTree n} (h : ∀ p ∈ nodeBlocks t, ∀ es ls, p.2.Shows es ls → (D p.1).Shows es ls) :
    Holds D t := by
  induction n with
  | zero => trivial
  | succ n ih =>
      obtain ⟨b,es,ks,rfl⟩ := t.eq_node
      refine holds_node.2 ⟨h (b, nodeBlock es ks) List.mem_cons_self _ _ (shows_nodeBlock es ks),fun k hk => ?_⟩
      exact ih fun p hp => h p (List.mem_cons_of_mem _ (List.mem_flatten.2 ⟨_,List.mem_map_of_mem hk,hp⟩))

-- An exclusive handle on a file of `size` blocks whose current root holds the tree `t`.
def St.holding (t : KeyTree n) (size : Int) : St where
  ctx := { St.fresh.ctx with super := { St.fresh.ctx.super with sblkmx := size, scroot := t.link } }
  disk := ⟨fun b => { ((nodeBlocks t).lookup b).getD (Block.fresh ZINUSE ZNULL) with
    btype := if b = t.link ∨ b = ZSUPER then ZROOT else ZINUSE },size⟩

theorem writable_holding (t : KeyTree n) : Writable (St.holding t size) := ⟨rfl,rfl,rfl⟩

theorem plain_holding [Build] {t : KeyTree n} (hn : 0 < n) (hwf : t.RootWf ZMXKEY) (hsize : 0 < size)
    (hids : ∀ b ∈ t.ids, 0 < b ∧ b < size) (hnodup : t.ids.Nodup) (hL : Sorted KeyEnt.key t.inorder)
    (hshort : ∀ e ∈ t.inorder, e.key.length ≤ 31) (hsingle : ∀ e ∈ t.inorder, e.dup = ZNULL) :
    Plain (St.holding t size) t [] [0] (entryMap t.inorder) := by
  have hlook : ∀ p ∈ nodeBlocks t, (nodeBlocks t).lookup p.1 = some p.2 := fun p hp =>
    lookup_of_mem (map_fst_nodeBlocks t ▸ hnodup) hp
  refine ⟨⟨rfl,holds_of_nodeBlocks fun p hp es ls hs => ?_,fun b hb => ?_,⟨rfl,?_,fun b hb => ?_,rfl,hsize.le⟩⟩,hwf,hn,hL,
    hshort,hsingle,?_,fun k v => entryMap_eq_some hL hsingle⟩
  · simp only [St.holding, hlook p hp, Option.getD_some]
    exact ⟨hs.nkeys,hs.keys,hs.links⟩
  · have hz : b ≠ ZSUPER := (hids b hb).1.ne'
    simp only [St.holding, hz, or_false]
    rfl
  · rw [List.nil_append]
    refine List.nodup_append.2 ⟨hnodup,List.nodup_singleton _,fun b hb c hc hbc => ?_⟩
    rw [List.mem_singleton] at hc
    exact (hids b hb).1.ne' (hbc.trans hc)
  · rw [List.nil_append] at hb
    rcases List.mem_append.1 hb with hb | hb
    · exact ⟨(hids b hb).1.le,(hids b hb).2⟩
    · rw [List.mem_singleton.1 hb]
      exact ⟨le_refl _,hsize⟩
  · obtain ⟨n,rfl⟩ : ∃ k, n = k + 1 := ⟨n - 1,by omega⟩
    obtain ⟨b,es,ks,rfl⟩ := t.eq_node
    have := hlook (b, nodeBlock es ks) List.mem_cons_self
    simp only [St.holding, link_node, this, Option.getD_some]
    rfl

end Btlib
