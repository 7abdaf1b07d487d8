import Btlib.Index.Index

namespace Btlib

open Multiway

variable {n m : Nat} {s s' : St} {fs os : List Int} {e e' : KeyEnt} {k : Key}

section Insert

variable {f : KeyFrame 0} {p : KeyPath 1 m}

theorem Index.insert (h : Index s ((Path.step f p).plug BTree.nil) fs os)
    (hle : ∀ x ∈ f.le, x.key < e.key) (hre : ∀ x ∈ f.re, e.key < x.key)
    (hsuper : s'.ctx.super = s.ctx.super) (hsize : s'.disk.size = s.disk.size)
    (hblock : s'.disk.block =
      Function.update s.disk.block f.id ((s.disk.block f.id).putky e ZNULL ZNULL)) :
    Index s' (p.plug (f.fillTwo BTree.nil e BTree.nil)) fs os := by
  have hmemf : f.id ∈ ((Path.step f p).plug BTree.nil).ids :=
    Index.mem_plug.2 (Or.inr List.mem_cons_self)
  have hperm : ((p.plug (f.fillTwo BTree.nil e BTree.nil)).ids).Perm
      ((Path.step f p).plug BTree.nil).ids := by
    refine (p.ids_plug _).trans (List.Perm.trans ?_ (p.ids_plug _).symm)
    exact ((f.ids_fillTwo _ _).trans (f.ids_fill _).symm).append_right _
  have hother : ∀ c, c ≠ f.id → s'.disk.block c = s.disk.block c := fun c hc => by
    rw [hblock, Function.update_of_ne hc]
  have hnd := ((Path.step f p).ids_plug BTree.nil).nodup_iff.1 h.nodup
  simp only [BTree.ids_zero, List.nil_append, Path.ids_step, Frame.ids, List.cons_append,
    List.nodup_cons, List.mem_append, not_or] at hnd
  refine h.change ?_ (by rw [hsuper]) ?_ ((h.store.perm (hperm.symm.append_right os)).transfer hsize
    ?_ (by rw [hsuper]) (by rw [hsuper])) ?_
  · simp only [link_plug, link_fillTwo, Path.top]
  · obtain ⟨⟨⟨hf,hsib⟩,hp⟩,-⟩ := (holds_plug_iff _ _).1 h.holds
    rw [holds_plug_iff, link_fillTwo, Frame.fillTwo, holds_node]
    refine ⟨hp.congr fun c hc => hother c ?_,?_,fun k _ => trivial⟩
    · rintro rfl
      exact hnd.1.2 hc
    · rw [nodeLinks_of_ne (by simp), hblock, Function.update_self, map_link_zero]
      have hlen : (f.lk ++ BTree.nil :: BTree.nil :: f.rk).length = (f.le ++ e :: f.re).length + 1 := by
        simp only [List.length_append, List.length_cons, f.hl, f.hr]
        omega
      rw [hlen]
      rcases eq_or_ne (f.le ++ f.re) [] with hnil | hne
      · obtain ⟨hle0,hre0⟩ := List.append_eq_nil_iff.1 hnil
        rw [hle0, hre0]
        have hn0 : (s.disk.block f.id).nkeys = 0 := by
          rw [hf.nkeys, hnil]
          rfl
        exact Block.putky_empty hn0 e ZNULL ZNULL
      · rw [if_neg fun hc => hne hc.2] at hf
        have hlinks : f.lk.map BTree.link ++ ZNULL :: f.rk.map BTree.link =
            List.replicate ((f.le ++ f.re).length + 1) ZNULL := by
          have hmap := map_link_zero (f.lk ++ BTree.nil :: f.rk)
          rw [List.map_append, List.map_cons] at hmap
          rw [show (f.le ++ f.re).length + 1 = (f.lk ++ BTree.nil :: f.rk).length by
            simp only [List.length_append, List.length_cons, f.hl, f.hr, Nat.add_assoc]]
          exact hmap
        rw [link_nil, hlinks] at hf
        exact Block.putky_leaf hf hne (fun x hx => strcmp_pos_iff.2 (hle x hx))
          fun x hx => strcmp_nonpos_iff.2 (hre x hx).le
  · intro c hc
    refine hother c (ne_of_mem_of_not_mem hc ?_)
    exact h.store.not_mem_free (List.mem_append_left _ hmemf)
  · intro c hc
    refine Or.inl ⟨hperm.mem_iff.1 hc,?_⟩
    by_cases hcf : c = f.id
    · rw [hcf, hblock, Function.update_self]
      exact (Block.putky_sameInfo _ _ _ _).btype
    · rw [hother c hcf]

end Insert

section Replace

variable {p : KeyPath (n + 1) m} {blk : Int} {l r : List KeyEnt} {ks : List (KeyTree n)}

theorem Block.Shows.replace {b : Block} {ls : List Int} (h : b.Shows (l ++ e :: r) ls) (e' : KeyEnt) :
    (b.setKey l.length e').Shows (l ++ e' :: r) ls := by
  have hk := h.keys
  rw [Reads.append_iff, Reads.cons_iff, zero_add] at hk
  refine ⟨?_,?_,h.links⟩
  · rw [Block.setKey_nkeys, h.nkeys]
    simp
  · rw [Reads.append_iff, Reads.cons_iff, zero_add]
    exact ⟨hk.1.update (by omega),Function.update_self _ _ _,hk.2.2.update (by omega)⟩

theorem Index.replace (h : Index s (p.plug (BTree.node blk (l ++ e :: r) ks)) fs os)
    (hsuper : s'.ctx.super = s.ctx.super) (hsize : s'.disk.size = s.disk.size)
    (hblock : s'.disk.block =
      Function.update s.disk.block blk ((s.disk.block blk).setKey l.length e')) :
    Index s' (p.plug (BTree.node blk (l ++ e' :: r) ks)) fs os := by
  have hmem : blk ∈ (p.plug (BTree.node blk (l ++ e :: r) ks)).ids :=
    Index.mem_plug.2 (Or.inl List.mem_cons_self)
  have hperm : ((p.plug (BTree.node blk (l ++ e' :: r) ks)).ids).Perm
      (p.plug (BTree.node blk (l ++ e :: r) ks)).ids :=
    (p.ids_plug _).trans (p.ids_plug (BTree.node blk (l ++ e :: r) ks)).symm
  have hother : ∀ c, c ≠ blk → s'.disk.block c = s.disk.block c := fun c hc => by
    rw [hblock, Function.update_of_ne hc]
  have hnd := (p.ids_plug _).nodup_iff.1 h.nodup
  rw [BTree.ids_node, List.cons_append, List.nodup_cons, List.mem_append, not_or] at hnd
  refine h.change ?_ (by rw [hsuper]) ?_ ((h.store.perm (hperm.symm.append_right os)).transfer hsize
    ?_ (by rw [hsuper]) (by rw [hsuper])) ?_
  · simp only [link_plug, link_node]
  · obtain ⟨hp,hshow,hks⟩ := (holds_plug_iff _ _).1 h.holds
    rw [holds_plug_iff, link_node, holds_node]
    refine ⟨hp.congr fun c hc => hother c ?_,?_,fun k hk => (hks k hk).congr fun c hc => hother c ?_⟩
    · rintro rfl
      exact hnd.1.2 hc
    · rw [hblock, Function.update_self, nodeLinks_of_ne (by simp)]
      have hs : (s.disk.block blk).Shows (l ++ e :: r) (nodeLinks (l ++ e :: r) ks) := hshow
      rw [nodeLinks_of_ne (by simp)] at hs
      exact hs.replace e'
    · rintro rfl
      exact hnd.1.1 (List.mem_flatten.2 ⟨_,List.mem_map_of_mem hk,hc⟩)
  · intro c hc
    refine hother c (ne_of_mem_of_not_mem hc ?_)
    exact h.store.not_mem_free (List.mem_append_left _ hmem)
  · intro c hc
    refine Or.inl ⟨hperm.mem_iff.1 hc,?_⟩
    by_cases hcb : c = blk
    · rw [hcb, hblock, Function.update_self]
      rfl
    · rw [hother c hcb]

end Replace

end Btlib
