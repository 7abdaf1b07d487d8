import Btlib.Keys.Sole

namespace Btlib

open Multiway Links Prog

-- How many values the key `k` has among the entries `l`.
def tally (k : Key) (l : List Item) : Nat := l.countP fun x => x.1 = k

section Tally

variable {vals : KeyEnt → List Int} {l r : List KeyEnt} {e : KeyEnt} {k : Key}

theorem tally_absent (h : ∀ e ∈ l, e.key ≠ k) : tally k (items vals l) = 0 := by
  refine List.countP_eq_zero.2 fun x hx => ?_
  obtain ⟨e,he,hx⟩ := mem_items hx
  simpa [hx] using h e he

theorem tally_present (hl : ∀ e ∈ l, e.key ≠ k) (he : e.key = k) (hr : ∀ e ∈ r, e.key ≠ k) :
    tally k (items vals (l ++ e :: r)) = (vals e).length := by
  have h0 : tally k (items vals l) = 0 := tally_absent hl
  have h1 : tally k (items vals r) = 0 := tally_absent hr
  rw [tally] at h0 h1 ⊢
  rw [items_append, items_cons, List.countP_append, List.countP_append, h0, h1, List.countP_map]
  simp [Function.comp_def, he, List.countP_true]

end Tally

variable [Build] {n m m' : Nat} {s s' : St} {fs fs' D os : List Int} {nd : Int → Nat} {live : Finset (Int × Nat)}
  {ent : Int × Nat → DKey} {vals : KeyEnt → List Int} {t : KeyTree m} {t' : KeyTree m'} {e : KeyEnt} {l r : List KeyEnt}
  {key k : Key} {v : Int} {vs : List Int} {ps : List (Int × Nat)}

-- A key that is there with its first value, or is not.
inductive Tallied (l : List KeyEnt) (vals : KeyEnt → List Int) (k : Key) : Prop
  | present (bs as : List KeyEnt) (e : KeyEnt) (v : Int) (vs : List Int) (hl : l = bs ++ e :: as) (he : e.key = k)
      (hbs : ∀ x ∈ items vals bs, x.1 < k) (hv : vals e = v :: vs)
      (hs : Cursor.seek Prod.fst k (items vals l) = ⟨items vals bs, some (k, v), vs.map (k, ·) ++ items vals as⟩)
      (ht : tally k (items vals l) = vs.length + 1)
  | absent (hs : (Cursor.seek Prod.fst k (items vals l)).cur = none) (ht : tally k (items vals l) = 0)

theorem Shelf.tallied (h : Shelf s t fs D os live ent vals) (k : Key) : Tallied t.inorder vals k := by
  by_cases hk : ∃ e ∈ t.inorder, e.key = k
  · obtain ⟨e,he,rfl⟩ := hk
    obtain ⟨bs,as,hl⟩ := List.append_of_mem he
    have hsort := hl ▸ h.sorted
    have hlt : ∀ x ∈ bs, x.key < e.key := fun x hx => hsort.lt hx List.mem_cons_self
    have hgt : ∀ x ∈ as, e.key < x.key := fun x hx => by
      have hsort' : Sorted KeyEnt.key ((bs ++ [e]) ++ as) := by simpa using hsort
      exact hsort'.lt (by simp) hx
    have hbs : ∀ x ∈ items vals bs, x.1 < e.key := fun x hx => by
      obtain ⟨e',he',hx⟩ := mem_items hx
      rw [hx]
      exact hlt e' he'
    obtain ⟨ps,hc⟩ := h.chained e he
    obtain ⟨v,vs,hv⟩ := List.exists_cons_of_ne_nil hc.ne_nil
    refine .present bs as e v vs hl rfl hbs hv ?_ ?_
    · rw [hl, items_append, items_cons, hv]
      exact Cursor.seek_hit hbs rfl
    · rw [hl, tally_present (fun x hx => (hlt x hx).ne) rfl fun x hx => (hgt x hx).ne', hv, List.length_cons]
  · push Not at hk
    refine .absent ?_ (tally_absent hk)
    rw [Option.eq_none_iff_forall_not_mem]
    intro x hx
    obtain ⟨hxk,hmem⟩ := Cursor.seek_cur hx
    obtain ⟨e,he,hxe⟩ := mem_items hmem
    exact hk e he (hxe ▸ hxk)

-- The entry of a key, once the only value it may have had in a block of duplicates is gone.
structure Parted (s s' : St) (e : KeyEnt) : Prop where
  ctx : s'.ctx = { s.ctx with super := s'.ctx.super, lf := s'.ctx.lf }
  has : s'.disk.Has s'.ctx.lf.lfblk
  low : 0 ≤ s'.ctx.lf.lfpos
  high : s'.ctx.lf.lfpos < (s'.disk.block s'.ctx.lf.lfblk).nkeys
  ent : (s'.disk.block s'.ctx.lf.lfblk).keyblk s'.ctx.lf.lfpos = e
  super : s.ctx.shared = true → s'.disk.Has ZSUPER

theorem Shelf.entry_lt (h : Shelf s t fs D os live ent vals) {f : KeyFrame n} {d : KeyTree n} {p : KeyPath (n + 1) m}
    (hp : p.plug (f.fill d) = t) (hre : f.re = e :: r) : (f.le.length : Int) < (s.disk.block f.id).nkeys := by
  subst hp
  obtain ⟨hholds,-⟩ := (holds_plug_iff (Path.step f p) d).1 h.index.holds
  rw [hholds.1.1.nkeys]
  simp only [hre, List.length_append, List.length_cons]
  omega

-- `btdeldup` on the first value of a key: the others stay, or the entry of the key is still there.
theorem OnValue.exec_btdeldup (hb : Sized) {c : Cursor Item} {f : KeyFrame n} {d : KeyTree n} {p : KeyPath (n + 1) m}
    {after : List KeyEnt} (hv : OnValue s t c live ent vals f d p e r after ps [] v vs)
    (h : Shelf s t fs D os live ent vals) (hw : live = ∅ ∨ Whole s t fs D os nd live ent) (herr : s.ctx.err.qerror = 0)
    (hz : s.ctx.shared = true → s.disk.Has ZSUPER) : ∃ s', exec btdeldup s = .done (if vs = [] then ZNULL else 0, s') ∧
      (vs = [] → Parted s s' e) := by
  obtain ⟨hmem,hlt,hent⟩ := h.entry hv.plug hv.onKey.ents
  have hnk := h.entry_lt hv.plug hv.onKey.ents
  have hd : s.ctx.lf.draddr = front addr ZNULL ps := by
    rcases hv.onDup with ⟨rfl,hd⟩ | ⟨us,q,ws,rfl,hus,hd⟩
    · exact hd
    · obtain rfl := List.eq_nil_of_length_eq_zero hus
      exact hd
  have hchain := hv.chained
  rw [hv.split, List.nil_append] at hchain
  have hsame : Parted s s e := by
    refine ⟨rfl,?_,?_,?_,?_,hz⟩
    · rw [hv.onKey.blk]
      exact h.index.has hmem
    · rw [hv.onKey.pos]
      exact Int.natCast_nonneg _
    · rw [hv.onKey.blk, hv.onKey.pos]
      exact hnk
    · rw [hv.onKey.blk, hv.onKey.pos]
      exact hent
  rcases hw with rfl | hw
  · rcases hchain with ⟨rfl,-,hvs⟩ | ⟨hne,-,-,-,hl⟩
    · obtain ⟨-,rfl⟩ := List.cons.inj hvs
      refine ⟨s,?_,fun _ => hsame⟩
      have hnull : s.ctx.lf.draddr = ZNULL := hd
      simp only [btdeldup, exec_bind, exec_get, Prog.Outcome.bind_done, exec_ite, hnull, if_true, exec_pure]
    · obtain ⟨q,qs,rfl⟩ := List.exists_cons_of_ne_nil hne
      exact absurd (linked_cons.1 hl).1.1 (Finset.notMem_empty q)
  · have hfound : Found s (t.ids ++ os) f.id f.le.length e :=
      ⟨List.mem_append_left _ hmem,Int.natCast_nonneg _,by exact_mod_cast hlt,hent,hv.onKey.blk,hv.onKey.pos,herr⟩
    obtain ⟨s',fs',D',live',ent',⟨rfl,hex,hd',-,hedit⟩ | ⟨hne,hex,-⟩⟩ :=
      hw.dups.exec_btdeldup hb hfound hv.onDup hchain
    · refine ⟨s',hex,fun _ => ?_⟩
      obtain ⟨w,hblock⟩ := hedit.block f.id hfound.mem
      rw [if_pos rfl] at hblock
      have hblk := hedit.blk.trans hv.onKey.blk
      have hpos := hedit.pos.trans hv.onKey.pos
      have hhas : ∀ b ∈ t.ids ++ os, s'.disk.Has b := fun b hb => hd'.store.has_used (List.mem_append_right _ hb)
      refine ⟨hedit.ctx,?_,?_,?_,?_,fun _ => hhas _ hd'.super⟩
      · rw [hblk]
        exact hhas _ hfound.mem
      · rw [hpos]
        exact Int.natCast_nonneg _
      · rw [hblk, hpos, hblock]
        exact hnk
      · rw [hblk, hpos, hblock]
        simp [Block.setKey]
    · have hne : vs ≠ [] := hne
      rw [if_neg hne]
      exact ⟨s',hex,fun h0 => absurd h0 hne⟩

theorem Stands.first {bs as : List KeyEnt} (h : Shelf s t fs D os live ent vals)
    (hs : Stands s t live ent vals ⟨items vals bs, some (k, v), vs.map (k, ·) ++ items vals as⟩)
    (hin : t.inorder = bs ++ e :: as) (he : e.key = k) (hbs : ∀ x ∈ items vals bs, x.1 < k) (hve : vals e = v :: vs) :
    ∃ (n : Nat) (f : KeyFrame n) (d : KeyTree n) (p : KeyPath (n + 1) m) (r after : List KeyEnt) (ps : List (Int × Nat)),
      OnValue s t ⟨items vals bs, some (k, v), vs.map (k, ·) ++ items vals as⟩ live ent vals f d p e r after ps [] v vs := by
  rcases hs with ⟨f,p,hg⟩ | ⟨n,f,d,p,e',r,after,ps,lvs,w,rvs,hv⟩
  · have := congrArg Cursor.cur hg.cursor
    cases this
  · have hcur : (k, v) = (e'.key, w) := Option.some.inj (congrArg Cursor.cur hv.cursor)
    have hbefore : items vals bs = items vals ((Path.step f p).left ++ d.inorder) ++ lvs.map (e'.key, ·) :=
      congrArg Cursor.before hv.cursor
    obtain ⟨hk,rfl⟩ := Prod.mk.inj hcur
    have hsort := hin ▸ h.sorted
    obtain rfl : e' = e := by
      rcases List.mem_append.1 (hin ▸ h.mem hv.plug hv.right) with hmem | hmem
      · obtain ⟨u,hu⟩ := h.item_mem (h.mem hv.plug hv.right)
        have := hbs _ (items_mono (List.cons_subset.2 ⟨hmem,List.nil_subset _⟩) hu)
        exact absurd this (by rw [← hk]; exact lt_irrefl k)
      · rcases List.mem_cons.1 hmem with rfl | hmem
        · rfl
        · have hsort' : Sorted KeyEnt.key ((bs ++ [e]) ++ as) := by simpa using hsort
          have := hsort'.lt (List.mem_append_right bs (List.mem_singleton_self e)) hmem
          exact absurd this (by rw [he, hk]; exact lt_irrefl _)
    obtain rfl : lvs = [] := by
      rcases lvs with _ | ⟨u,lvs⟩
      · rfl
      · have := hbs (e'.key, u) (by rw [hbefore]; simp)
        exact absurd this (by rw [← hk]; exact lt_irrefl k)
    obtain rfl : rvs = vs := by
      have := hv.split
      rw [hve] at this
      simpa using this.symm
    exact ⟨n,f,d,p,r,after,ps,hv⟩

-- What the search for a key that is to go leaves.
structure Sighted (s : St) (l : List KeyEnt) (D os : List Int) (nd : Int → Nat) (live : Finset (Int × Nat))
    (ent : Int × Nat → DKey) (vals : KeyEnt → List Int) (k : Key) (r : (Int × Int) × St) : Prop where
  code : r.1.1 = r.2.ctx.err.qerror
  value : (r.1.1, if r.1.1 = 0 then some r.1.2 else none) = found k (items vals l)
  isOpen : Open os r.2
  stays : Remains s r.2
  mode : r.2.ctx.super.smode = s.ctx.super.smode
  here : ∃ (m : Nat) (t : KeyTree m) (fs : List Int), Shelf r.2 t fs D os live ent vals ∧ t.inorder = l ∧
    (live = ∅ ∨ Whole r.2 t fs D os nd live ent) ∧ Stands r.2 t live ent vals (Cursor.seek Prod.fst k (items vals l))

theorem ends_sighted (hb : Sized) (hcap : 3 ≤ ZMXKEY) (h : Shelf s t fs D os live ent vals) (ho : Open os s)
    (hw : live = ∅ ∨ Whole s t fs D os nd live ent) (hf : 2 * t.inorder.length + 3 ≤ FUEL) (key : Key)
    (hlck : s.ctx.shared = false ∨ 0 < s.ctx.lckcnt) : (exec (bfndky key) s).Ends (Refused s.ctx.super.scroot)
      (Sighted s t.inorder D os nd live ent vals (keycpy key)) := by
  refine (ends_call_find hb hcap h ho hf key).mono (fun _ _ h => h) fun r hr => ?_
  obtain ⟨hval,⟨m',t',fs',h',hin,hopen,⟨hs,-⟩,-⟩,-,-,hst,hsearch⟩ := hr
  have hst := hst hlck
  obtain ⟨a,s1,hex,hk,hkept⟩ := hsearch.run
  obtain ⟨hdisk,hsuper⟩ := hkept hlck
  have hmode : r.2.ctx.super.smode = s.ctx.super.smode := (congrArg Super.smode hsuper).trans hk.mode
  have hkeeps : Keeps s r.2 (D ++ os) := by
    refine ⟨hst.isopen,hst.shared,hst.lckcnt,hst.root,hmode,fun b hb => ?_,?_⟩
    · rw [hdisk]
      exact hk.other b hb
    · rw [hdisk]
      exact hk.info
  refine ⟨hsearch.code,hval,hopen,hst,hmode,m',t',fs',h',hin,hw.imp_right fun hw => hw.search h' hkeeps ?_,hs⟩
  have hstore := hw.dups.store
  have h0 : Addressed s.ctx := ⟨hstore.size ▸ hstore.size_nonneg,hstore.size ▸ hw.dups.size⟩
  have h1 : Addressed s1.ctx := carries_exec (carries_bfndkySearch (searching_addressed hb) key) s.clear.entered hex h0
  rw [Addressed, hsuper]
  exact h1

end Btlib
