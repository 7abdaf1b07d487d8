import Btlib.Index.Holds
import Btlib.Machine.Store

namespace Btlib

open Multiway

variable {n m : Nat} {s s' s'' : St} {fs os : List Int}

-- The root the handle is on: its blocks hold the tree `t`, `fs` are the free blocks of the file, and
-- `os` blocks that belong to neither.
structure Index (s : St) (t : KeyTree n) (fs os : List Int) : Prop where
  link : t.link = s.ctx.super.scroot
  holds : Holds s.disk.block t
  kind : ∀ b ∈ t.ids, (s.disk.block b).btype = if b = s.ctx.super.scroot then ZROOT else ZINUSE
  store : Store s fs (t.ids ++ os)

-- What the operations on the keys of a root leave alone.
structure Keeps (s s' : St) (os : List Int) : Prop where
  isopen : s'.ctx.isopen = s.ctx.isopen
  shared : s'.ctx.shared = s.ctx.shared
  lckcnt : s'.ctx.lckcnt = s.ctx.lckcnt
  root : s'.ctx.super.scroot = s.ctx.super.scroot
  mode : s'.ctx.super.smode = s.ctx.super.smode
  other : ∀ b ∈ os, s'.disk.block b = s.disk.block b
  info : (s.disk.block s.ctx.super.scroot).SameInfo (s'.disk.block s.ctx.super.scroot)

theorem Keeps.refl (s : St) (os : List Int) : Keeps s s os :=
  ⟨rfl,rfl,rfl,rfl,rfl,fun _ _ => rfl,Block.SameInfo.refl _⟩

theorem Keeps.trans (h : Keeps s s' os) (h' : Keeps s' s'' os) : Keeps s s'' os where
  isopen := h'.isopen.trans h.isopen
  shared := h'.shared.trans h.shared
  lckcnt := h'.lckcnt.trans h.lckcnt
  root := h'.root.trans h.root
  mode := h'.mode.trans h.mode
  other b hb := (h'.other b hb).trans (h.other b hb)
  info := h.info.trans (by
    have := h'.info
    rwa [h.root] at this)

namespace Index

variable {t : KeyTree n} {p : KeyPath n m} {c : KeyTree n}

theorem has (h : Index s t fs os) {b : Int} (hb : b ∈ t.ids) : s.disk.Has b :=
  h.store.has_used (List.mem_append_left _ hb)

theorem nodup (h : Index s t fs os) : t.ids.Nodup :=
  (List.nodup_append.1 h.store.nodup_used).1

theorem not_mem_os (h : Index s t fs os) {b : Int} (hb : b ∈ t.ids) : b ∉ os := fun ho =>
  (List.nodup_append.1 h.store.nodup_used).2.2 b hb b ho rfl

theorem withCtx (h : Index s t fs os) {c : Ctx} (hc : c.super = s.ctx.super) :
    Index { s with ctx := c } t fs os where
  link := by
    rw [h.link, ← hc]
  holds := h.holds
  kind := by
    simp only [hc]
    exact h.kind
  store := h.store.withCtx hc

theorem link_mem {t : KeyTree (n + 1)} : t.link ∈ t.ids := List.mem_cons_self

theorem height_pos (p : KeyPath (n + 1) m) (c : KeyTree (n + 1)) : (p.plug c).link ∈ (p.plug c).ids := by
  have hm := p.height_eq
  obtain ⟨m,rfl⟩ : ∃ k, m = k + 1 := ⟨n + p.depth,by omega⟩
  exact link_mem

theorem change {t' : KeyTree m} {fs' : List Int} (h : Index s t fs os) (hlink : t'.link = t.link)
    (hroot : s'.ctx.super.scroot = s.ctx.super.scroot) (hholds : Holds s'.disk.block t')
    (hstore : Store s' fs' (t'.ids ++ os))
    (hkind : ∀ b ∈ t'.ids, b ∈ t.ids ∧ (s'.disk.block b).btype = (s.disk.block b).btype ∨
      b ≠ t.link ∧ (s'.disk.block b).btype = ZINUSE) : Index s' t' fs' os where
  link := by rw [hlink, hroot, h.link]
  holds := hholds
  kind b hb := by
    rw [hroot, ← h.link]
    rcases hkind b hb with ⟨hb',htype⟩ | ⟨hne,htype⟩
    · rw [htype, h.kind b hb', h.link]
    · rw [htype, if_neg hne]
  store := hstore

theorem mem_plug {b : Int} : b ∈ (p.plug c).ids ↔ b ∈ c.ids ∨ b ∈ p.ids := by
  rw [(p.ids_plug c).mem_iff, List.mem_append]

theorem keeps_put (h : Index s t fs os) {b : Int} (hb : b ∈ t.ids) {blk : Block} {c : Ctx}
    (hinfo : (s.disk.block b).SameInfo blk) (h1 : c.isopen = s.ctx.isopen)
    (h2 : c.shared = s.ctx.shared) (h3 : c.lckcnt = s.ctx.lckcnt) (h4 : c.super = s.ctx.super) :
    Keeps s ⟨c,s.disk.put b blk⟩ os where
  isopen := h1
  shared := h2
  lckcnt := h3
  root := by rw [h4]
  mode := by rw [h4]
  other c' hc' := by
    rw [Disk.block_put, Function.update_of_ne]
    rintro rfl
    exact h.not_mem_os hb hc'
  info := by
    rw [Disk.block_put]
    rcases eq_or_ne s.ctx.super.scroot b with heq | hne
    · rw [heq, Function.update_self]
      exact hinfo
    · rw [Function.update_of_ne hne]
      exact Block.SameInfo.refl _

end Index

end Btlib
