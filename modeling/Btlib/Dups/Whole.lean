import Btlib.Dups.Queues
import Btlib.Index.Map

namespace Btlib

open Multiway

variable {n m m' : Nat} {D D' : Int → Block} {s s' : St} {fs fs' os os' : List Int}

section Index

variable {t : KeyTree m} {t' : KeyTree m'}

theorem Index.root_mem (h : Index s t fs os) (hm : 0 < m) : s.ctx.super.scroot ∈ t.ids := by
  obtain ⟨m,rfl⟩ : ∃ k, m = k + 1 := ⟨m - 1,by omega⟩
  rw [← h.link]
  exact Index.link_mem

theorem Holds.nxdup {t : KeyTree n} (h : Holds D t) (hD : ∀ b ∈ t.ids, ∃ v, D' b = { D b with nxdup := v }) :
    Holds D' t := by
  induction n with
  | zero => trivial
  | succ n ih =>
      obtain ⟨b,es,ks,rfl⟩ := t.eq_node
      rw [holds_node] at h ⊢
      rw [BTree.ids_node] at hD
      refine ⟨?_,fun k hk => ih (h.2 k hk) fun c hc => hD c ?_⟩
      · obtain ⟨v,hv⟩ := hD b List.mem_cons_self
        rw [hv]
        exact ⟨h.1.nkeys,h.1.keys,h.1.links⟩
      · exact List.mem_cons_of_mem _ (List.mem_flatten.2 ⟨_,List.mem_map_of_mem hk,hc⟩)

theorem Index.nxdup (h : Index s t fs os) (hroot : s'.ctx.super.scroot = s.ctx.super.scroot)
    (hstore : Store s' fs' (t.ids ++ os')) (hblock : ∀ b ∈ t.ids, ∃ v, s'.disk.block b = { s.disk.block b with nxdup := v }) :
    Index s' t fs' os' := by
  refine ⟨h.link.trans hroot.symm,h.holds.nxdup hblock,fun b hb => ?_,hstore⟩
  obtain ⟨v,hv⟩ := hblock b hb
  rw [hroot, hv]
  exact h.kind b hb

end Index

variable [Build] {Ds : List Int} {nd : Int → Nat} {live : Finset (Int × Nat)} {ent : Int × Nat → DKey}
  {t : KeyTree m} {t' : KeyTree m'}

-- A root with its blocks of duplicates, beside the other blocks `os` of the file.
structure Whole (s : St) (t : KeyTree m) (fs D os : List Int) (nd : Int → Nat) (live : Finset (Int × Nat))
    (ent : Int × Nat → DKey) : Prop where
  dups : Dups s fs D (t.ids ++ os) nd live ent
  super : ZSUPER ∈ os ∨ s.ctx.super.scroot = ZSUPER
  data : (s.disk.block s.ctx.super.scroot).nxblk = ZNULL ∨ (s.disk.block s.ctx.super.scroot).nxblk ∈ os

theorem Whole.ofIndex (h : Whole s t fs Ds os nd live ent) (hix : Index s' t' fs' (Ds ++ os)) (hm : 0 < m')
    (hk : Keeps s s' (Ds ++ os)) (hsize : s'.disk.size * ZBLKSZ ≤ BTINT_MAX) : Whole s' t' fs' Ds os nd live ent := by
  have hD : ∀ b ∈ Ds, s'.disk.block b = s.disk.block b := fun b hb => hk.other b (List.mem_append_left _ hb)
  have hd := h.dups
  have hroot : s'.ctx.super.scroot ∈ t'.ids ++ os := List.mem_append_left _ (hix.root_mem hm)
  have hdata : (s'.disk.block s'.ctx.super.scroot).nxblk = ZNULL ∨ (s'.disk.block s'.ctx.super.scroot).nxblk ∈ os := by
    rw [hk.root, hk.info.nxblk]
    exact h.data
  refine ⟨⟨hix.store.perm ?_,hsize,?_,hroot,fun b hb => ?_,fun b hb => ?_,fun b hb => ?_,?_,?_,fun p hp => ?_⟩,?_,hdata⟩
  · rw [← List.append_assoc, ← List.append_assoc]
    exact List.perm_append_comm.append_right os
  · rcases h.super with hz | hz
    · exact List.mem_append_right _ hz
    · exact List.mem_append_left _ (hz ▸ hk.root ▸ hix.root_mem hm)
  · rw [hD b hb]
    exact hd.block b hb
  · rw [hD b hb]
    refine (hd.nxblk b hb).imp_right fun hx => ⟨hx.1,?_⟩
    rw [hD _ hx.1]
    exact hx.2
  · rw [hD b hb]
    refine (hd.nblks b hb).imp_right fun hx => ⟨hx.1,?_⟩
    rw [hD _ hx.1]
    exact hx.2
  · rw [hk.root, hk.info.nxdup]
    refine hd.head.imp_right fun hx => ⟨hx.1,?_⟩
    rw [hD _ hx.1]
    exact hx.2
  · exact hdata.imp_right (List.mem_append_right _)
  · rw [hD p.1 (hd.seg p hp).1]
    exact hd.seg p hp
  · rw [hk.root]
    exact h.super

theorem Whole.reached (hb : Sized) (h : Whole s t fs Ds os nd live ent) (hr : s.disk.Reaches s'.disk) :
    s'.disk.size * ZBLKSZ ≤ BTINT_MAX := hr hb.word hb.block h.dups.size

end Btlib
