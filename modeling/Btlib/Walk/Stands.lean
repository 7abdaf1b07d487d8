import Btlib.Index.Moves
import Btlib.Theory.Cursor
import Btlib.Walk.Along
import Btlib.Walk.Latch

namespace Btlib

open Multiway Links

abbrev Item : Type := Key × Int

-- The entries of the keys `es` in order, each key once for each of its values.
def items (vals : KeyEnt → List Int) (es : List KeyEnt) : List Item :=
  es.flatMap fun e => (vals e).map fun v => (e.key, v)

@[simp] theorem items_append (vals : KeyEnt → List Int) (l r : List KeyEnt) :
    items vals (l ++ r) = items vals l ++ items vals r := List.flatMap_append

theorem items_single (vals : KeyEnt → List Int) (e : KeyEnt) : items vals [e] = (vals e).map (e.key, ·) :=
  List.flatMap_singleton _ _

theorem items_cons (vals : KeyEnt → List Int) (e : KeyEnt) (es : List KeyEnt) :
    items vals (e :: es) = (vals e).map (e.key, ·) ++ items vals es := List.flatMap_cons

variable [Build] {n m : Nat} {s s' : St} {fs D os : List Int} {live : Finset (Int × Nat)}
  {ent : Int × Nat → DKey} {vals : KeyEnt → List Int} {t : KeyTree m} {e : KeyEnt} {r : List KeyEnt} {dir : Int}

-- A root with or without duplicates: the tree `t` of its keys, with the blocks `D` of their duplicates.
structure Shelf (s : St) (t : KeyTree m) (fs D os : List Int) (live : Finset (Int × Nat))
    (ent : Int × Nat → DKey) (vals : KeyEnt → List Int) : Prop where
  index : Index s t fs (D ++ os)
  legible : Legible s D live ent
  wf : t.RootWf ZMXKEY
  pos : 0 < m
  sorted : Sorted KeyEnt.key t.inorder
  copies : ∀ e ∈ t.inorder, keycpy e.key = e.key
  chained : ∀ e ∈ t.inorder, ∃ ps, Chained live ent e ps (vals e)
  isopen : s.ctx.isopen = true

-- The last found position is in a gap of a leaf.
structure InGap (s : St) (t : KeyTree m) (c : Cursor Item) (vals : KeyEnt → List Int) (f : KeyFrame 0)
    (p : KeyPath 1 m) : Prop where
  plug : p.plug (f.fill BTree.nil) = t
  link : AtLink s f p
  exct : s.ctx.lf.lfexct = false
  draddr : s.ctx.lf.draddr = ZNULL
  cursor : c = ⟨items vals (Path.step f p).left, none, items vals (Path.step f p).right⟩

-- The last found position is that of a value of a key.
structure OnValue (s : St) (t : KeyTree m) (c : Cursor Item) (live : Finset (Int × Nat)) (ent : Int × Nat → DKey)
    (vals : KeyEnt → List Int) (f : KeyFrame n) (d : KeyTree n) (p : KeyPath (n + 1) m) (e : KeyEnt)
    (r after : List KeyEnt) (ps : List (Int × Nat)) (lvs : List Int) (v : Int) (rvs : List Int) : Prop where
  plug : p.plug (f.fill d) = t
  onKey : OnKey s f p e r
  lfkey : s.ctx.lf.lfkey = e.key
  right : (Path.step f p).right = e :: after
  chained : Chained live ent e ps (vals e)
  split : vals e = lvs ++ v :: rvs
  onDup : OnDup s ps lvs.length
  cursor : c = ⟨items vals ((Path.step f p).left ++ d.inorder) ++ lvs.map (e.key, ·), some (e.key, v),
    rvs.map (e.key, ·) ++ items vals after⟩

-- The last found position stands for the place `c` in the list of all entries.
def Stands (s : St) (t : KeyTree m) (live : Finset (Int × Nat)) (ent : Int × Nat → DKey)
    (vals : KeyEnt → List Int) (c : Cursor Item) : Prop :=
  (∃ f p, InGap s t c vals f p) ∨ ∃ n f d p e r after ps lvs v rvs,
    OnValue (n := n) s t c live ent vals f d p e r after ps lvs v rvs

-- The last found position is outside of the index.
structure Lost (s : St) : Prop where
  blk : s.ctx.lf.lfblk = ZNULL
  exct : s.ctx.lf.lfexct = false
  draddr : s.ctx.lf.draddr = ZNULL

-- The place is known from the key last found alone.
def Tracks (s : St) (c : Cursor Item) : Prop :=
  keycpy s.ctx.lf.lfkey = s.ctx.lf.lfkey ∧
    (c.cur = none → (∀ x ∈ c.before, x.1 < s.ctx.lf.lfkey) ∧ ∀ x ∈ c.after, s.ctx.lf.lfkey < x.1)

-- Where a handle is: outside of the index, or at a place in it, which a shared handle can find again.
def Place (s : St) (t : KeyTree m) (live : Finset (Int × Nat)) (ent : Int × Nat → DKey)
    (vals : KeyEnt → List Int) : Option (Cursor Item) → Prop
  | none => Lost s
  | some c => Stands s t live ent vals c ∧ (s.ctx.shared = true → Tracks s c)

-- A handle on the root whose keys are `l`, in a tree that a search may have changed.
def Here (l : List KeyEnt) (D os : List Int) (live : Finset (Int × Nat)) (ent : Int × Nat → DKey)
    (vals : KeyEnt → List Int) (root : Int) (o : Option (Cursor Item)) (s : St) : Prop :=
  ∃ (m : Nat) (t : KeyTree m) (fs : List Int), Shelf s t fs D os live ent vals ∧ t.inorder = l ∧
    Open os s ∧ Place s t live ent vals o ∧ s.ctx.super.scroot = root

-- What a move changes.
structure Walked (s s' : St) : Prop where
  disk : s'.disk = s.disk
  ctx : s'.ctx = { s.ctx with lf := s'.ctx.lf, stk := s'.ctx.stk }

-- The answer to a move, with the place it is to come to.
def Goes (s : St) (t : KeyTree m) (live : Finset (Int × Nat)) (ent : Int × Nat → DKey)
    (vals : KeyEnt → List Int) (o : Option (Item × Cursor Item)) (a : Option Item × St) : Prop :=
  Walked s a.2 ∧
    match o with
    | none => a.1 = none ∧ Lost a.2
    | some (x, c) => a.1 = some x ∧ a.2.ctx.lf.lfblk ≠ ZNULL ∧ Stands a.2 t live ent vals c

omit [Build] in
theorem inorder_behind {f : KeyFrame n} {d : KeyTree n} {p : KeyPath (n + 1) m} {after : List KeyEnt}
    (hright : (Path.step f p).right = e :: after) :
    (p.plug (f.fill d)).inorder = (Path.step f p).left ++ d.inorder ++ e :: after := by
  rw [← hright]
  exact (Path.step f p).inorder_plug d

theorem Chained.ends (dir : Int) {ps : List (Int × Nat)} {vs : List Int} (h : Legible s D live ent)
    (hc : Chained live ent e ps vs) : ∃ lvs v rvs, vs = lvs ++ v :: rvs ∧ (if dir = ZNEXT then lvs else rvs) = [] ∧
      (ps = [] ∧ e.dup = ZNULL ∧ v = e.val ∨ ∃ us p ws nx pv, ps = us ++ p :: ws ∧ us.length = lvs.length ∧
        e.dup ≠ ZNULL ∧ (if dir = ZNEXT then e.val else e.dup) = addr p ∧ Cell live ent e.key p v nx pv) := by
  rcases hc with ⟨rfl,hdup,rfl⟩ | ⟨hne,-,hfront,hback,hl⟩
  · exact ⟨[],e.val,[],rfl,by split <;> rfl,Or.inl ⟨rfl,hdup,rfl⟩⟩
  obtain ⟨us,p,rfl⟩ := (List.eq_nil_or_concat' ps).resolve_left hne
  have hlen := hl.length_eq
  rw [back_append] at hback
  obtain ⟨lvs,v,rfl⟩ := (List.eq_nil_or_concat' vs).resolve_left fun hnil => by simp [hnil] at hlen
  have hus : us.length = lvs.length := by simpa using hlen
  have hlast := hl.middle hus
  have hdup : e.dup ≠ ZNULL := hback ▸ h.addr_ne_null hlast.1
  by_cases hd : dir = ZNEXT
  · obtain ⟨q,ws,hq⟩ := List.exists_cons_of_ne_nil hne
    obtain ⟨w,rvs,hw⟩ := List.exists_cons_of_ne_nil (List.append_ne_nil_of_right_ne_nil lvs (List.cons_ne_nil v []))
    simp only [if_pos hd]
    rw [hq, hw] at hl
    rw [hq] at hfront
    exact ⟨[],w,rvs,hw,rfl,Or.inr ⟨[],q,ws,_,_,hq,rfl,hdup,hfront,(linked_cons.1 hl).1⟩⟩
  · simp only [if_neg hd]
    exact ⟨lvs,v,[],rfl,rfl,Or.inr ⟨us,p,[],_,_,rfl,hus,hdup,hback,hlast⟩⟩

-- The last found position as it is on a value of the key `k`.
def St.on (s : St) (f : KeyFrame n) (p : KeyPath (n + 1) m) (k : Key) (a : Int) : St :=
  { s with ctx.stk := down p, ctx.lf := ⟨k,f.id,f.le.length,true,a⟩ }

namespace Shelf

section Frame

variable {f : KeyFrame n} {d : KeyTree n} {p : KeyPath (n + 1) m}

theorem entry (h : Shelf s t fs D os live ent vals) (hp : p.plug (f.fill d) = t) (hre : f.re = e :: r) :
    f.id ∈ t.ids ∧ f.le.length < ZMXKEY ∧ (s.disk.block f.id).keyblk f.le.length = e := by
  subst hp
  obtain ⟨hholds,-⟩ := (holds_plug_iff (Path.step f p) d).1 h.index.holds
  have hsize : f.size ≤ ZMXKEY := (Path.wf_step.1 ((Path.step f p).rootWf_plug_iff d |>.1 h.wf).1).1.2.1
  refine ⟨Index.mem_plug.2 (Or.inl List.mem_cons_self),?_,?_⟩
  · rw [Frame.size, hre, List.length_cons] at hsize
    omega
  · have hk := hholds.1.1.keys
    rw [hre, Reads.append_iff, zero_add] at hk
    exact hk.2.1

theorem mem (_ : Shelf s t fs D os live ent vals) (hp : p.plug (f.fill d) = t) {after : List KeyEnt}
    (hright : (Path.step f p).right = e :: after) : e ∈ t.inorder := by
  subst hp
  rw [inorder_behind hright]
  exact List.mem_append_right _ List.mem_cons_self

theorem right (_ : Shelf s t fs D os live ent vals) (hre : f.re = e :: r) :
    ∃ after, (Path.step f p).right = e :: after := by
  obtain ⟨id,le,lk,re,rk,hl,hr⟩ := f
  obtain rfl : re = e :: r := hre
  exact ⟨_,rfl⟩

end Frame

-- `btduppos` on the entry of a key, without a duplicate selected.
theorem exec_enter (dir : Int) (hb : Sized) (h : Shelf s t fs D os live ent vals) {f : KeyFrame n} {d : KeyTree n}
    {p : KeyPath (n + 1) m} (hp : p.plug (f.fill d) = t) (hre : f.re = e :: r) :
    ∃ ps lvs v rvs a code, vals e = lvs ++ v :: rvs ∧ (if dir = ZNEXT then lvs else rvs) = [] ∧
      Chained live ent e ps (vals e) ∧ OnDup (s.on f p e.key a) ps lvs.length ∧
        exec (btduppos dir e.val) (s.on f p e.key ZNULL) = .done ((code, v), s.on f p e.key a) := by
  obtain ⟨hmem,hlt,hent⟩ := h.entry hp hre
  obtain ⟨after,hright⟩ := h.right hre (p := p)
  obtain ⟨ps,hc⟩ := h.chained e (h.mem hp hright)
  obtain ⟨lvs,v,rvs,hvs,hend,hps⟩ := hc.ends dir h.legible
  have honto : Onto (s.on f p e.key ZNULL) f.id f.le.length e := ⟨h.index.has hmem,hent,rfl,rfl⟩
  have hlegible : Legible (s.on f p e.key ZNULL) D live ent := h.legible.congr (fun _ hb => hb) fun _ _ => rfl
  rcases hps with ⟨rfl,hdup,rfl⟩ | ⟨us,q,ws,nx,pv,rfl,hlen,hdup,hfirst,hcell⟩
  · exact ⟨[],lvs,e.val,rvs,ZNULL,ZNULL,hvs,hend,hc,Or.inl ⟨rfl,rfl⟩,Legible.exec_btduppos_plain honto rfl rfl hdup⟩
  · exact ⟨_,lvs,v,rvs,addr q,0,hvs,hend,hc,Or.inr ⟨us,q,ws,rfl,hlen,rfl⟩,
      hlegible.exec_btduppos_enter hb honto rfl rfl hdup hfirst hcell⟩

-- `takeKey` once a move has come to an entry.
theorem exec_takeKey (dir : Int) (hb : Sized) (h : Shelf s t fs D os live ent vals) {f : KeyFrame n} {d : KeyTree n}
    {p : KeyPath (n + 1) m} (hp : p.plug (f.fill d) = t) (hre : f.re = e :: r) :
    ∃ ps lvs v rvs a, vals e = lvs ++ v :: rvs ∧ (if dir = ZNEXT then lvs else rvs) = [] ∧
      Chained live ent e ps (vals e) ∧ OnDup (s.on f p e.key a) ps lvs.length ∧
        exec (takeKey (s.disk.block f.id) dir) (s.reset.onto f p) = .done ((e.key, v), s.on f p e.key a) := by
  obtain ⟨-,-,hent⟩ := h.entry hp hre
  obtain ⟨after,hright⟩ := h.right hre (p := p)
  have hcopy := h.copies e (h.mem hp hright)
  obtain ⟨ps,lvs,v,rvs,a,code,hvs,hend,hc,hon,hex⟩ := h.exec_enter dir hb hp hre
  have hget : (s.disk.block f.id).keyblk (s.reset.onto f p).ctx.lf.lfpos = e := hent
  have hset : exec (takeKey (s.disk.block f.id) dir) (s.reset.onto f p) =
      (exec (btduppos dir e.val) (s.on f p e.key ZNULL)).bind fun r => .done ((e.key, r.1.2), r.2) := by
    simp only [takeKey, exec_bind, exec_get, Prog.Outcome.bind_done, hget, hcopy, exec_setLf, exec_pure]
    rfl
  refine ⟨ps,lvs,v,rvs,a,hvs,hend,hc,hon,?_⟩
  rw [hset, hex]
  rfl

theorem tracks (h : Shelf s t fs D os live ent vals) {c : Cursor Item} (hs : Stands s t live ent vals c)
    (hc : c.cur ≠ none) : Tracks s c := by
  rcases hs with ⟨f,p,hg⟩ | ⟨n,f,d,p,e,r,after,ps,lvs,v,rvs,hv⟩
  · rw [hg.cursor] at hc
    exact absurd rfl hc
  · refine ⟨?_,fun h0 => absurd h0 hc⟩
    rw [hv.lfkey]
    exact h.copies e (h.mem hv.plug hv.right)

theorem same (h : Shelf s t fs D os live ent vals) (hdisk : s'.disk = s.disk) (hsuper : s'.ctx.super = s.ctx.super)
    (hopen : s'.ctx.isopen = s.ctx.isopen) : Shelf s' t fs D os live ent vals := by
  obtain ⟨ctx,disk⟩ := s'
  obtain rfl : disk = s.disk := hdisk
  exact ⟨h.index.withCtx hsuper,h.legible.congr (fun _ hb => hb) fun _ _ => rfl,h.wf,h.pos,h.sorted,h.copies,h.chained,
    hopen.trans h.isopen⟩

theorem walked (h : Shelf s t fs D os live ent vals) (hw : Walked s s') : Shelf s' t fs D os live ent vals :=
  h.same hw.disk (by rw [hw.ctx]) (by rw [hw.ctx])

theorem out (h : Shelf s t fs D os live ent vals) (ho : Out s s') (hopen : Open os s) :
    Shelf s' t fs D os live ent vals := by
  have hsuper : s'.ctx.super.scroot = s.ctx.super.scroot ∧ s'.ctx.super.sfreep = s.ctx.super.sfreep ∧
      s'.ctx.super.sblkmx = s.ctx.super.sblkmx ∧ s'.ctx.isopen = s.ctx.isopen := by
    rw [ho.ctx]
    exact ⟨rfl,rfl,rfl,rfl⟩
  obtain ⟨hroot,hfree,hmax,hisopen⟩ := hsuper
  by_cases hk : s.ctx.shared = false
  · obtain ⟨hdisk,hsup⟩ := ho.kept (Or.inl hk)
    exact h.same hdisk hsup hisopen
  have hused : ZSUPER ∈ t.ids ++ (D ++ os) := by
    rcases hopen.super (by simpa using hk) with hos | hr
    · exact List.mem_append_right _ (List.mem_append_right _ hos)
    · obtain ⟨m,rfl⟩ : ∃ k, m = k + 1 := ⟨m - 1,by have := h.pos; omega⟩
      rw [← hr, ← h.index.link]
      exact List.mem_append_left _ Index.link_mem
  have hkeys : ∀ b, SameKeys (s.disk.block b) (s'.disk.block b) := fun b => by
    rcases eq_or_ne b ZSUPER with rfl | hb
    · exact ho.keys
    · rw [ho.other b hb]
      exact SameKeys.refl _
  have hD : ∀ b ∈ D, s'.disk.block b = s.disk.block b := fun b hb =>
    ho.other b fun hz => absurd (h.legible.has b hb).1 (by rw [hz]; decide)
  have hhas : ∀ b, s.disk.Has b → s'.disk.Has b := fun b hb => by
    rw [Disk.Has, ho.size]
    exact hb
  refine ⟨⟨?_,h.index.holds.sameKeys hkeys,fun b hb => ?_,h.index.store.transfer ho.size (fun c hc => ?_) hfree hmax⟩,
    h.legible.congr hhas hD,h.wf,h.pos,h.sorted,h.copies,h.chained,hisopen.trans h.isopen⟩
  · rw [hroot]
    exact h.index.link
  · have hkind := h.index.kind b hb
    rw [hroot]
    rcases eq_or_ne b ZSUPER with rfl | hne
    · rcases hopen.super (by simpa using hk) with hos | hr
      · exact absurd (List.mem_append_right D hos) (h.index.not_mem_os hb)
      · rw [if_pos hr.symm] at hkind ⊢
        exact ho.keys.btype hkind
    · rw [ho.other b hne]
      exact hkind
  · exact ho.other c (ne_of_mem_of_not_mem hused (h.index.store.not_mem_free · hc) |>.symm)

end Shelf

end Btlib
