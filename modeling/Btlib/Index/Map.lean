import Btlib.Index.Calls
import Btlib.Index.Update

namespace Btlib

open Multiway

section Entries

variable {l r : List KeyEnt} {e : KeyEnt} {μ : Key → Option Int}

theorem entries_found (hd : e.dup = ZNULL)
    (hμ : ∀ k v, μ k = some v ↔ ⟨k,v,ZNULL⟩ ∈ l ++ e :: r) : μ e.key = some e.val := by
  rw [hμ, ← hd]
  exact List.mem_append_right _ List.mem_cons_self

theorem entries_missed {k : Key} (hl : ∀ x ∈ l, x.key < k) (hr : ∀ x ∈ r, k < x.key)
    (hμ : ∀ k v, μ k = some v ↔ ⟨k,v,ZNULL⟩ ∈ l ++ r) : μ k = none := by
  rw [Option.eq_none_iff_forall_ne_some]
  intro v hv
  rcases List.mem_append.1 ((hμ k v).1 hv) with h | h
  · exact lt_irrefl _ (hl _ h)
  · exact lt_irrefl _ (hr _ h)

theorem entries_insert {k : Key} {v : Int} (hl : ∀ x ∈ l, x.key < k) (hr : ∀ x ∈ r, k < x.key)
    (hμ : ∀ k v, μ k = some v ↔ ⟨k,v,ZNULL⟩ ∈ l ++ r) (k' : Key) (v' : Int) :
    Function.update μ k (some v) k' = some v' ↔ ⟨k',v',ZNULL⟩ ∈ l ++ ⟨k,v,ZNULL⟩ :: r := by
  have hmid : (⟨k',v',ZNULL⟩ : KeyEnt) ∈ l ++ ⟨k,v,ZNULL⟩ :: r ↔
      (k' = k ∧ v' = v) ∨ ⟨k',v',ZNULL⟩ ∈ l ++ r := by
    rw [List.perm_middle.mem_iff, List.mem_cons, KeyEnt.mk.injEq]
    simp
  rw [hmid]
  rcases eq_or_ne k' k with rfl | hne
  · rw [Function.update_self]
    have hnone := (hμ k' v').not.1 (by simp [entries_missed hl hr hμ])
    simp only [Option.some.injEq, true_and, hnone, or_false]
    exact eq_comm
  · rw [Function.update_of_ne hne, hμ]
    simp [hne]

theorem entries_replace {v : Int} (hL : Sorted KeyEnt.key (l ++ e :: r)) (hd : e.dup = ZNULL)
    (hμ : ∀ k v, μ k = some v ↔ ⟨k,v,ZNULL⟩ ∈ l ++ e :: r) (k' : Key) (v' : Int) :
    Function.update μ e.key (some v) k' = some v' ↔
      ⟨k',v',ZNULL⟩ ∈ l ++ { e with val := v } :: r := by
  have hsplit : ∀ x : KeyEnt, (⟨k',v',ZNULL⟩ : KeyEnt) ∈ l ++ x :: r ↔
      (⟨k',v',ZNULL⟩ : KeyEnt) = x ∨ ⟨k',v',ZNULL⟩ ∈ l ++ r := fun x => by
    rw [List.perm_middle.mem_iff, List.mem_cons]
  have hold : k' = e.key → (⟨k',v',ZNULL⟩ : KeyEnt) ∉ l ++ r := by
    rintro rfl hmem
    rcases List.mem_append.1 hmem with h | h
    · have hlt : (⟨e.key,v',ZNULL⟩ : KeyEnt).key < e.key := hL.lt h List.mem_cons_self
      exact lt_irrefl _ hlt
    · have hlt : e.key < (⟨e.key,v',ZNULL⟩ : KeyEnt).key := (List.pairwise_cons.1 hL.right).1 _ h
      exact lt_irrefl _ hlt
  rw [hsplit]
  rcases eq_or_ne k' e.key with rfl | hne
  · rw [Function.update_self]
    simp only [Option.some.injEq, hold rfl, or_false, KeyEnt.mk.injEq, true_and, hd, and_true]
    exact eq_comm
  · rw [Function.update_of_ne hne, hμ, hsplit]
    refine or_congr ?_ Iff.rfl
    constructor <;> (intro h; exact absurd (congrArg KeyEnt.key h) hne)

end Entries

variable [Build] {n m : Nat} {s s' s0 : St} {fs os : List Int} {k : Key}

-- A handle that is open, exclusive and writable.
structure Writable (s : St) : Prop where
  isopen : s.ctx.isopen = true
  shared : s.ctx.shared = false
  mode : s.ctx.super.smode = 0

-- A well-formed root, with duplicates or without.
structure WellFormed (s : St) (t : KeyTree n) (fs os : List Int) : Prop where
  index : Index s t fs os
  wf : t.RootWf ZMXKEY
  pos : 0 < n
  sorted : Sorted KeyEnt.key t.inorder
  short : ∀ e ∈ t.inorder, e.key.length ≤ 31

theorem WellFormed.withCtx {t : KeyTree n} {c : Ctx} (h : WellFormed s t fs os) (hc : c.super = s.ctx.super) :
    WellFormed { s with ctx := c } t fs os := { h with index := h.index.withCtx hc }

theorem WellFormed.ofSpot {t : KeyTree n} {t' : KeyTree m} {fs' : List Int} (h : WellFormed s t fs os)
    (hs : Spot s0 s' t' fs' os ⟨t,fs,k⟩) : WellFormed s' t' fs' os :=
  ⟨hs.index,hs.wf,hs.pos,hs.inorder ▸ h.sorted,hs.inorder ▸ h.short⟩

-- A well-formed root without duplicates: its tree `t` has the entries of the map `μ`.
structure Plain (s : St) (t : KeyTree n) (fs os : List Int) (μ : Key → Option Int) : Prop where
  index : Index s t fs os
  wf : t.RootWf ZMXKEY
  pos : 0 < n
  sorted : Sorted KeyEnt.key t.inorder
  short : ∀ e ∈ t.inorder, e.key.length ≤ 31
  single : ∀ e ∈ t.inorder, e.dup = ZNULL
  nodups : (s.disk.block s.ctx.super.scroot).misc = 0
  entries : ∀ k v, μ k = some v ↔ ⟨k,v,ZNULL⟩ ∈ t.inorder

theorem Plain.wellFormed {t : KeyTree n} {μ : Key → Option Int} (h : Plain s t fs os μ) : WellFormed s t fs os :=
  ⟨h.index,h.wf,h.pos,h.sorted,h.short⟩

def Root (s : St) (os : List Int) (μ : Key → Option Int) (keys : Nat) : Prop :=
  Writable s ∧ ∃ n, ∃ t : KeyTree n, ∃ fs, Plain s t fs os μ ∧ t.inorder.length ≤ keys

-- The order of the keys is that of `strcmp`, and what is below a link lies between the keys beside it.
theorem Plain.strcmp_lt {t : KeyTree n} {μ : Key → Option Int} (h : Plain s t fs os μ) :
    t.inorder.Pairwise fun a b => strcmp a.key b.key < 0 :=
  h.sorted.imp fun hlt => strcmp_neg_iff.2 hlt

theorem Plain.between {f : KeyFrame n} {p : KeyPath (n + 1) m} {c : KeyTree n}
    {μ : Key → Option Int} (h : Plain s (p.plug (f.fill c)) fs os μ) {x y z : KeyEnt}
    (hx : x ∈ f.le) (hy : y ∈ c.inorder) (hz : z ∈ f.re) :
    strcmp x.key y.key < 0 ∧ strcmp y.key z.key < 0 := by
  have hs := h.sorted
  rw [Path.inorder_plug, f.inorder_fill] at hs
  have hL := hs.left.right
  rw [strcmp_neg_iff, strcmp_neg_iff]
  exact ⟨hL.left.lt (mem_weave.2 (Or.inr hx)) hy,
    hL.lt (List.mem_append_right _ hy) (mem_weave.2 (Or.inr hz))⟩

omit [Build] in
theorem Writable.keeps (h : Writable s) (hk : Keeps s s' os) : Writable s' :=
  ⟨hk.isopen.trans h.isopen,hk.shared.trans h.shared,hk.mode.trans h.mode⟩

section Parts

variable {key : Key} {v : Int} {μ : Key → Option Int}

theorem exec_btduppos_single {blk : Int} {l : List KeyEnt} {e : KeyEnt} {r : List KeyEnt}
    {ls : List Int} {p : KeyPath (n + 1) m} {val : Int} (hat : AtKey s p blk l e r)
    (hblk : s.disk.Has blk) (hshow : (s.disk.block blk).Shows (l ++ e :: r) ls) (hd : e.dup = ZNULL) :
    exec (btduppos ZNEXT val) s = .done ((ZNULL, val), s) := by
  have hkey : (s.disk.block blk).keyblk l.length = e := by
    have := (Reads.append_iff.1 hshow.keys).2.1
    rwa [zero_add] at this
  simp [btduppos, hat.lf, getkeyent, Disk.read_eq hblk, hkey, hd]

-- `bfndky` of a root without duplicates.
theorem ends_bfndky_plain {t : KeyTree n} {Q : (Int × Int) × St → Prop} (hcap : 3 ≤ ZMXKEY)
    (hw : Writable s) (h : Plain s t fs os μ) (hkey : key.length ≤ 31)
    (hfuel : 2 * t.inorder.length + 3 ≤ FUEL)
    (hfound : ∀ {n m : Nat} (p : KeyPath (n + 1) m) (blk : Int) (l : List KeyEnt) (e : KeyEnt)
      (r : List KeyEnt) (ks : List (KeyTree n)) (s' : St) (fs' : List Int),
      Spot s.clear s' (p.plug (BTree.node blk (l ++ e :: r) ks)) fs' os ⟨t,fs,key⟩ →
      e.key = key → AtKey s' p blk l e r → Q ((0, e.val), s'))
    (hmissed : ∀ {m : Nat} (f : KeyFrame 0) (p : KeyPath 1 m) (s' : St) (fs' : List Int) (v : Int),
      Spot s.clear s' ((Path.step f p).plug BTree.nil) fs' os ⟨t,fs,key⟩ → AtGap s' f p key →
      Q ((QNOKEY, v), { s' with ctx.err := ⟨"BFNDKY", QNOKEY, .key key⟩ })) :
    (exec (bfndky key) s).Ends (Refused s.ctx.super.scroot) Q := by
  have hcpy := keycpy_eq hkey
  refine ends_bfndky hcap hw.isopen hw.shared h.pos h.index h.wf h.sorted hfuel ?_ ?_
  · intro n m p blk l e r ks s' fs' hspot he hat
    have hmem : blk ∈ (p.plug (BTree.node blk (l ++ e :: r) ks)).ids :=
      Index.mem_plug.2 (Or.inl List.mem_cons_self)
    have hin : e ∈ t.inorder := by
      rw [← hspot.inorder, p.inorder_plug]
      refine List.mem_append_left _ (List.mem_append_right _ (mem_weave.2 (Or.inr ?_)))
      exact List.mem_append_right _ List.mem_cons_self
    have herr : s'.ctx.err = ⟨"", 0, .none⟩ := hspot.err
    rw [exec_btduppos_single hat (hspot.index.has hmem)
      (holds_node.1 ((holds_plug_iff _ _).1 hspot.index.holds).2).1 (h.single e hin)]
    rw [hcpy] at he hspot
    refine ⟨hspot.keeps.shared.trans hw.shared,?_⟩
    rw [herr]
    exact hfound p blk l e r ks s' fs' hspot he hat
  · intro m f p s' fs' v hspot hat
    rw [hcpy] at hat hspot ⊢
    exact hmissed f p s' fs' v hspot hat

theorem Plain.ofSpot {m : Nat} {t : KeyTree n} {t' : KeyTree m} {fs' : List Int}
    (h : Plain s t fs os μ) (hs : Spot s.clear s' t' fs' os ⟨t,fs,key⟩) : Plain s' t' fs' os μ where
  index := hs.index
  wf := hs.wf
  pos := hs.pos
  sorted := hs.inorder ▸ h.sorted
  short := hs.inorder ▸ h.short
  single := hs.inorder ▸ h.single
  nodups := by
    have hroot : s'.ctx.super.scroot = s.ctx.super.scroot := hs.keeps.root
    have hinfo := hs.keeps.info.misc
    rw [hroot]
    exact hinfo.trans h.nodups
  entries := hs.inorder ▸ h.entries

theorem Plain.withCtx {t : KeyTree n} {c : Ctx} (h : Plain s t fs os μ)
    (hc : c.super = s.ctx.super) : Plain { s with ctx := c } t fs os μ :=
  { h with
    index := h.index.withCtx hc
    nodups := by
      simp only [hc]
      exact h.nodups }

omit [Build] in
theorem Keeps.clear (h : Keeps s.clear s' os) : Keeps s s' os :=
  ⟨h.isopen,h.shared,h.lckcnt,h.root,h.mode,h.other,h.info⟩

-- `bleaf` stays where it is when the link there leads nowhere.
theorem exec_bleaf_stays {dir : Int} (hblk : s.disk.Has s.ctx.lf.lfblk) (hfuel : 0 < FUEL)
    (h : (s.disk.block s.ctx.lf.lfblk).nkeys = 0 ∨
      (s.disk.block s.ctx.lf.lfblk).lnkblk s.ctx.lf.lfpos = ZNULL) :
    exec (bleaf dir) s = .done (some (s.disk.block s.ctx.lf.lfblk), s) := by
  obtain ⟨N,hN⟩ : ∃ N, FUEL = N + 1 := ⟨FUEL - 1,by omega⟩
  simp only [bleaf, exec_bind, exec_get, Prog.Outcome.bind_done, exec_brdblk, Disk.read_eq hblk,
    exec_bgtinf hblk, Block.getInf_ZNKEYS, exec_ite, exec_pure]
  split
  · rfl
  · rename_i hne
    rw [hN, bleafLoop]
    simp only [exec_bind, exec_get, Prog.Outcome.bind_done, exec_ite]
    rw [if_pos (h.resolve_left hne), exec_pure]

theorem AtGap.stays {f : KeyFrame 0} {p : KeyPath 1 m} (h : AtGap s f p k)
    (hh : PathHolds s.disk.block (Path.step f p) ZNULL) :
    (s.disk.block s.ctx.lf.lfblk).nkeys = 0 ∨
      (s.disk.block s.ctx.lf.lfblk).lnkblk s.ctx.lf.lfpos = ZNULL := by
  have hf := hh.1.1
  rw [h.lf]
  rcases eq_or_ne (f.le ++ f.re) [] with hnil | hne
  · left
    rw [hf.nkeys, hnil]
    rfl
  · right
    rw [if_neg fun hc => hne hc.2] at hf
    have hl := hf.links
    rw [Reads.append_iff, List.length_map, f.hl, zero_add] at hl
    have hsize : f.size ≠ 0 := fun h0 => hne (List.length_eq_zero_iff.1 (by
      rw [List.length_append]
      exact h0))
    simp only [framePos, if_neg hsize]
    exact hl.2.1

end Parts

section Calls

variable {key : Key} {v : Int} {μ : Key → Option Int} {t : KeyTree n}

-- What a call leaves behind: a root with the entries of `ν`.
structure Leaves (s : St) (os : List Int) (keys : Nat) (ν : Key → Option Int) (s' : St) : Prop where
  keeps : Keeps s s' os
  root : Root s' os ν keys

theorem Plain.leaves {m : Nat} {t' : KeyTree m} {fs' : List Int} {ν : Key → Option Int} {keys : Nat}
    (h : Plain s' t' fs' os ν) (hw : Writable s) (hk : Keeps s s' os)
    (hlen : t'.inorder.length ≤ keys) : Leaves s os keys ν s' :=
  ⟨hk,hw.keeps hk,m,t',fs',h,hlen⟩

theorem ends_find (hcap : 3 ≤ ZMXKEY) (hw : Writable s) (h : Plain s t fs os μ)
    (hkey : key.length ≤ 31) (hfuel : 2 * t.inorder.length + 3 ≤ FUEL) :
    (exec (bfndky key) s).Ends (Refused s.ctx.super.scroot) fun r =>
      Leaves s os t.inorder.length μ r.2 ∧
        (μ key = none ∧ r.1.1 = QNOKEY ∨ ∃ v, μ key = some v ∧ r.1 = (0, v)) := by
  refine ends_bfndky_plain hcap hw h hkey hfuel ?_ ?_
  · intro n m p blk l e r ks s' fs' hspot he hat
    have h' := h.ofSpot hspot
    refine ⟨h'.leaves hw hspot.keeps.clear (by rw [hspot.inorder]),Or.inr ⟨e.val,?_,rfl⟩⟩
    have hin : e ∈ (p.plug (BTree.node blk (l ++ e :: r) ks)).inorder := by
      rw [p.inorder_plug]
      refine List.mem_append_left _ (List.mem_append_right _ (mem_weave.2 (Or.inr ?_)))
      exact List.mem_append_right _ List.mem_cons_self
    rw [← he, h'.entries, ← h'.single e hin]
    exact hin
  · intro m f p s' fs' v hspot hat
    have h' := h.ofSpot hspot
    refine ⟨(h'.withCtx ?_).leaves hw (hspot.keeps.clear.withCtx ?_ ?_ ?_ ?_)
      (by rw [hspot.inorder]),Or.inl ⟨?_,rfl⟩⟩
    iterate 5 rfl
    refine entries_missed hat.before hat.after fun k v => ?_
    have hent := h'.entries k v
    rw [Path.inorder_plug, BTree.inorder_zero, List.append_nil] at hent
    exact hent

section Insert

variable {f : KeyFrame 0} {p : KeyPath 1 m} {e : KeyEnt}

omit [Build] in
theorem inorder_insert (f : KeyFrame 0) (p : KeyPath 1 m) (e : KeyEnt) :
    (p.plug (f.fillTwo BTree.nil e BTree.nil)).inorder = (Path.step f p).left ++ e :: (Path.step f p).right := by
  rw [Path.inorder_plug, f.inorder_fillTwo]
  simp

theorem WellFormed.insert (h : WellFormed s ((Path.step f p).plug BTree.nil) fs os) (hat : AtGap s f p e.key)
    (hmode : s.ctx.super.smode = 0) (hshort : e.key.length ≤ 31) (hsuper : s'.ctx.super = s.ctx.super)
    (hdisk : s'.disk = s.disk.put f.id ((s.disk.block f.id).putky e ZNULL ZNULL)) :
    WellFormed s' (p.plug (f.fillTwo BTree.nil e BTree.nil)) fs os := by
  have hle : ∀ x ∈ f.le, x.key < e.key := fun x hx => hat.before x
    (List.mem_append_right _ (mem_weave.2 (Or.inr hx)))
  have hre : ∀ x ∈ f.re, e.key < x.key := fun x hx => hat.after x
    (List.mem_append_left _ (mem_weave.2 (Or.inr hx)))
  have hpath := ((Path.step f p).rootWf_plug_iff _).1 h.wf
  have hfwf := (Path.wf_step.1 hpath.1).1
  have hold : ((Path.step f p).plug BTree.nil).inorder = (Path.step f p).left ++ (Path.step f p).right := by
    rw [Path.inorder_plug, BTree.inorder_zero, List.append_nil]
  refine ⟨h.index.insert hle hre hsuper (by rw [hdisk]; rfl) (by rw [hdisk]; rfl),?_,h.pos,?_,?_⟩
  · refine (p.rootWf_plug_iff _).2 ⟨(Path.wf_step.1 hpath.1).2,?_⟩
    exact (Frame.wf_fillTwo f hfwf (hat.room hmode) trivial trivial).mono p.floor_le_one
  · rw [inorder_insert]
    exact (hold ▸ h.sorted).insert hat.before hat.after
  · rw [inorder_insert]
    intro x hx
    rw [List.perm_middle.mem_iff, List.mem_cons, ← hold] at hx
    rcases hx with rfl | hx
    · exact hshort
    · exact h.short x hx

-- `binskyPut` of a key that is not there.
theorem AtGap.exec_binskyPut (hat : AtGap s f p k) (h : Index s ((Path.step f p).plug BTree.nil) fs os)
    (hmode : s.ctx.super.smode = 0) (hkey : keycpy key = k) (hfuel : 0 < FUEL) :
    exec (binskyPut key v false) s = .done ((),
      { s.clear with disk := s.disk.put f.id ((s.disk.block f.id).putky ⟨k,v,ZNULL⟩ ZNULL ZNULL) }) := by
  have hblk : s.disk.Has f.id := h.has (Index.mem_plug.2 (Or.inr List.mem_cons_self))
  have hholds := ((holds_plug_iff _ _).1 h.holds).1
  have hnk : (s.disk.block f.id).nkeys ≠ ZMXKEY := by
    have := hat.room hmode
    rw [hholds.1.1.nkeys, List.length_append]
    simp only [Frame.size] at this
    omega
  have hlfblk : s.ctx.lf.lfblk = f.id := by rw [hat.lf]
  simp only [binskyPut, Bool.false_eq_true, if_false, exec_bind, exec_bterr0, Prog.Outcome.bind_done]
  rw [exec_bleaf_stays (s := { s with ctx.err := ⟨"", 0, .none⟩ }) (by rw [hat.lf]; exact hblk) hfuel
    (hat.stays hholds)]
  simp only [Prog.Outcome.bind_done, exec_get, hlfblk, exec_bputky, hblk, hnk, ne_eq, not_false_eq_true, hkey]
  rfl

theorem ends_insert (hcap : 3 ≤ ZMXKEY) (hw : Writable s) (h : Plain s t fs os μ)
    (hkey : key.length ≤ 31) (hfuel : 2 * t.inorder.length + 3 ≤ FUEL) :
    (exec (binsky key v) s).Ends (Refused s.ctx.super.scroot) fun r =>
      (∃ w, μ key = some w) ∧ r.1 = QDUP ∧ Leaves s os t.inorder.length μ r.2 ∨
        μ key = none ∧ r.1 = 0 ∧
          Leaves s os (t.inorder.length + 1) (Function.update μ key (some v)) r.2 := by
  have hcpy := keycpy_eq hkey
  have hroot := h.index.has (b := s.ctx.super.scroot) (by
    rw [← h.index.link]
    obtain ⟨n,rfl⟩ : ∃ k, n = k + 1 := ⟨n - 1,by have := h.pos; omega⟩
    exact Index.link_mem)
  have hrootc : s.clear.disk.Has s.clear.ctx.super.scroot := hroot
  rw [binsky, exec_api hw.isopen, errOf, exec_bind]
  rw [Prog.Outcome.ends_bind]
  refine ends_locked hw.shared ?_
  simp only [exec_bind, exec_get, Prog.Outcome.bind_done, exec_ite, exec_bgtinf hrootc,
    Block.getInf_ZMISC, hcpy]
  rw [if_neg (not_not.2 (show s.clear.ctx.super.smode = 0 from hw.mode))]
  have hclear : Plain s.clear t fs os μ := h.withCtx rfl
  have hwc : Writable s.clear := ⟨hw.isopen,hw.shared,hw.mode⟩
  have hdups : (s.clear.disk.block s.clear.ctx.super.scroot).misc = 0 := h.nodups
  rw [hdups, Prog.Outcome.ends_bind]
  refine ends_bfndky_plain (s := s.clear) hcap hwc hclear hkey hfuel ?_ ?_
  · intro n m p blk l e r ks s' fs' hspot he hat
    have h' := hclear.ofSpot hspot
    have herr : s'.ctx.err = ⟨"", 0, .none⟩ := hspot.err
    have hin : e ∈ (p.plug (BTree.node blk (l ++ e :: r) ks)).inorder := by
      rw [p.inorder_plug]
      refine List.mem_append_left _ (List.mem_append_right _ (mem_weave.2 (Or.inr ?_)))
      exact List.mem_append_right _ List.mem_cons_self
    simp only [exec_bterr, herr, ne_eq, String.reduceEq, not_false_eq_true, exec_btgerr, if_true]
    refine ⟨hspot.keeps.shared.trans hw.shared,Or.inl ⟨⟨e.val,?_⟩,rfl,?_⟩⟩
    · rw [← he, h'.entries, ← h'.single e hin]
      exact hin
    · refine (h'.withCtx ?_).leaves hw (hspot.keeps.clear.clear.withCtx ?_ ?_ ?_ ?_)
        (by rw [hspot.inorder])
      iterate 5 rfl
  · intro m f p s' fs' w hspot hat
    have h' := hclear.ofSpot hspot
    have hmode : s'.ctx.super.smode = 0 := hspot.keeps.mode.trans hw.mode
    obtain ⟨s1,hs1⟩ : ∃ s1 : St, s1 = { s' with ctx.err := ⟨"BFNDKY", QNOKEY, .key key⟩ } := ⟨_,rfl⟩
    have hat1 : AtGap s1 f p key := hs1 ▸ ⟨hat.lf,hat.stack,hat.before,hat.after,hat.room⟩
    have hix1 : Index s1 ((Path.step f p).plug BTree.nil) fs' os := hs1 ▸ hspot.index.withCtx rfl
    have hmode1 : s1.ctx.super.smode = 0 := by rw [hs1, hmode]
    rw [if_pos (Or.inl rfl), ← hs1]
    simp only [show ¬ QNOKEY = 0 by decide, decide_false, hat1.exec_binskyPut hix1 hmode1 hcpy (by omega),
      Prog.Outcome.ends_done, exec_btgerr]
    obtain ⟨s2,hs2⟩ : ∃ s2 : St, s2 = { s1.clear with
      disk := s1.disk.put f.id ((s1.disk.block f.id).putky ⟨key,v,ZNULL⟩ ZNULL ZNULL) } := ⟨_,rfl⟩
    rw [← hs2]
    have hold : (Path.step f p).left ++ (Path.step f p).right = t.inorder := by
      rw [← hspot.inorder, Path.inorder_plug, BTree.inorder_zero, List.append_nil]
    have hent := h'.entries
    rw [Path.inorder_plug, BTree.inorder_zero, List.append_nil] at hent
    have hformed : WellFormed s2 (p.plug (f.fillTwo BTree.nil ⟨key,v,ZNULL⟩ BTree.nil)) fs' os := by
      refine h'.wellFormed.insert hat hmode hkey ?_ ?_
      · rw [hs2, hs1]
        rfl
      · rw [hs2, hs1]
    have hkeeps : Keeps s' s2 os := by
      rw [hs2, hs1]
      exact hspot.index.keeps_put (Index.mem_plug.2 (Or.inr List.mem_cons_self))
        (Block.putky_sameInfo _ ⟨key,v,ZNULL⟩ ZNULL ZNULL) rfl rfl rfl rfl
    have hsh : s1.clear.ctx.shared = false := by
      rw [hs1]
      exact hspot.keeps.shared.trans hw.shared
    refine ⟨hsh,Or.inr ⟨entries_missed hat.before hat.after hent,rfl,?_⟩⟩
    refine Plain.leaves ⟨hformed.index,hformed.wf,h'.pos,hformed.sorted,hformed.short,?_,?_,?_⟩ hw
      (hspot.keeps.clear.clear.trans hkeeps) ?_
    · rw [inorder_insert]
      intro x hx
      rw [List.perm_middle.mem_iff, List.mem_cons, hold] at hx
      rcases hx with rfl | hx
      · rfl
      · exact h.single x hx
    · rw [hkeeps.root]
      exact hkeeps.info.misc.trans h'.nodups
    · rw [inorder_insert]
      exact entries_insert hat.before hat.after hent
    · rw [inorder_insert, ← hold]
      simp only [List.length_append, List.length_cons]
      omega

end Insert

section Replace

variable {p : KeyPath (n + 1) m} {blk : Int} {l r : List KeyEnt} {e e' : KeyEnt} {ks : List (KeyTree n)}

-- The entry at a place, in its block and among the others.
structure Placed (s : St) (p : KeyPath (n + 1) m) (blk : Int) (l : List KeyEnt) (e : KeyEnt) (r : List KeyEnt)
    (ks : List (KeyTree n)) : Prop where
  mem : blk ∈ (p.plug (BTree.node blk (l ++ e :: r) ks)).ids
  has : s.disk.Has blk
  loc : (l.length : Int) < ZMXKEY
  ent : (s.disk.block blk).keyblk l.length = e
  around : ∃ A B, ∀ x : KeyEnt, (p.plug (BTree.node blk (l ++ x :: r) ks)).inorder = A ++ x :: B

theorem WellFormed.placed (h : WellFormed s (p.plug (BTree.node blk (l ++ e :: r) ks)) fs os) :
    Placed s p blk l e r ks := by
  have hmem : blk ∈ (p.plug (BTree.node blk (l ++ e :: r) ks)).ids := Index.mem_plug.2 (Or.inl List.mem_cons_self)
  have hwf := BTree.wf_node.1 ((p.rootWf_plug_iff _).1 h.wf).2
  have hshow : (s.disk.block blk).Shows (l ++ e :: r) (nodeLinks (l ++ e :: r) ks) :=
    (holds_node.1 ((holds_plug_iff _ _).1 h.index.holds).2).1
  simp only [List.length_append, List.length_cons] at hwf
  refine ⟨hmem,h.index.has hmem,by omega,?_,_,_,fun x => p.inorder_entry x (by omega)⟩
  have := (Reads.append_iff.1 hshow.keys).2.1
  rwa [zero_add] at this

theorem WellFormed.replace {s' : St} {fs' os' : List Int}
    (h : WellFormed s (p.plug (BTree.node blk (l ++ e :: r) ks)) fs os) (hkey : e'.key = e.key)
    (hix : Index s' (p.plug (BTree.node blk (l ++ e' :: r) ks)) fs' os') :
    WellFormed s' (p.plug (BTree.node blk (l ++ e' :: r) ks)) fs' os' := by
  obtain ⟨A,B,hin⟩ := h.placed.around
  have hpath := (p.rootWf_plug_iff _).1 h.wf
  have hwf := BTree.wf_node.1 hpath.2
  refine ⟨hix,(p.rootWf_plug_iff _).2 ⟨hpath.1,BTree.wf_node.2 ⟨?_,?_,?_,hwf.2.2.2⟩⟩,h.pos,?_,?_⟩
  · simpa using hwf.1
  · simpa using hwf.2.1
  · simpa using hwf.2.2.1
  · rw [hin]
    exact (hin e ▸ h.sorted).replace hkey
  · rw [hin]
    intro x hx
    have hshort := hin e ▸ h.short
    rw [List.perm_middle.mem_iff, List.mem_cons] at hx
    rcases hx with rfl | hx
    · rw [hkey]
      exact hshort e (List.mem_append_right _ List.mem_cons_self)
    · refine hshort x ?_
      rw [List.perm_middle.mem_iff]
      exact List.mem_cons_of_mem _ hx

theorem ends_update (hcap : 3 ≤ ZMXKEY) (hw : Writable s) (h : Plain s t fs os μ)
    (hkey : key.length ≤ 31) (hfuel : 2 * t.inorder.length + 3 ≤ FUEL) :
    (exec (bupdky (some key) v) s).Ends (Refused s.ctx.super.scroot) fun r =>
      (∃ w, μ key = some w) ∧ r.1 = 0 ∧
          Leaves s os t.inorder.length (Function.update μ key (some v)) r.2 ∨
        μ key = none ∧ r.1 = QNOKEY ∧ Leaves s os t.inorder.length μ r.2 := by
  have hclear : Plain s.clear t fs os μ := h.withCtx rfl
  have hwc : Writable s.clear := ⟨hw.isopen,hw.shared,hw.mode⟩
  have hshared : s.clear.ctx.shared = false := hw.shared
  rw [bupdky, modifyKey, exec_api hw.isopen, errOf, exec_bind]
  simp only [exec_bind, exec_get, Prog.Outcome.bind_done, exec_ite, within, enter, hshared,
    Bool.false_eq_true, if_false, exec_pure, if_true, findKey]
  rw [if_neg (not_not.2 (show s.clear.ctx.super.smode = 0 from hw.mode))]
  rw [Prog.Outcome.ends_bind, Prog.Outcome.ends_bind, Prog.Outcome.ends_bind, Prog.Outcome.ends_bind]
  refine ends_bfndky_plain (s := s.clear) hcap hwc hclear hkey hfuel ?_ ?_
  · intro n m p blk l e r ks s' fs' hspot he hat
    have h' := hclear.ofSpot hspot
    have herr : s'.ctx.err = ⟨"", 0, .none⟩ := hspot.err
    have hsh : s'.ctx.shared = false := hspot.keeps.shared.trans hw.shared
    have hplaced := h'.wellFormed.placed
    obtain ⟨A,B,hin⟩ := hplaced.around
    have hbody : exec (bmodky blk l.length v) s' = .done ((),
        { s' with disk := s'.disk.put blk ((s'.disk.block blk).setKey l.length { e with val := v }) }) := by
      simp [bmodky, not_le.2 hplaced.loc, btdupupd, hat.draddr, Disk.read_eq hplaced.has, hplaced.ent]
    simp only [Prog.Outcome.ends_done, if_true, exec_bind, exec_get, Prog.Outcome.bind_done, hat.lfblk,
      hat.lfpos, hbody, leave, hsh, exec_ite, Bool.false_eq_true, if_false, exec_pure, exec_btgerr, herr]
    have hd : e.dup = ZNULL := h'.single e (by rw [hin]; exact List.mem_append_right _ List.mem_cons_self)
    have hkeeps : Keeps s'
        { s' with disk := s'.disk.put blk ((s'.disk.block blk).setKey l.length { e with val := v }) } os :=
      hspot.index.keeps_put hplaced.mem ⟨rfl,rfl,rfl,rfl,rfl,rfl,rfl⟩ rfl rfl rfl rfl
    have hformed : WellFormed { s' with disk := s'.disk.put blk ((s'.disk.block blk).setKey l.length { e with val := v }) }
        (p.plug (BTree.node blk (l ++ { e with val := v } :: r) ks)) fs' os :=
      h'.wellFormed.replace rfl (hspot.index.replace rfl rfl rfl)
    refine Or.inl ⟨⟨e.val,?_⟩,trivial,?_⟩
    · rw [← he]
      exact entries_found hd (hin e ▸ h'.entries)
    refine Plain.leaves ⟨hformed.index,hformed.wf,h'.pos,hformed.sorted,hformed.short,?_,?_,?_⟩ hw
      (hspot.keeps.clear.clear.trans hkeeps) ?_
    · rw [hin]
      intro x hx
      rw [List.perm_middle.mem_iff, List.mem_cons] at hx
      rcases hx with rfl | hx
      · exact hd
      · refine h'.single x ?_
        rw [hin, List.perm_middle.mem_iff]
        exact List.mem_cons_of_mem _ hx
    · exact hkeeps.info.misc.trans h'.nodups
    · rw [hin, ← he]
      exact entries_replace (hin e ▸ h'.sorted) hd (hin e ▸ h'.entries)
    · have hlen := congrArg List.length hspot.inorder
      rw [hin] at hlen ⊢
      simpa using hlen.le
  · intro m f p s' fs' w hspot hat
    have h' := hclear.ofSpot hspot
    have hsh : s'.ctx.shared = false := hspot.keeps.shared.trans hw.shared
    have hent := h'.entries
    rw [Path.inorder_plug, BTree.inorder_zero, List.append_nil] at hent
    simp only [Prog.Outcome.ends_done, show ¬ QNOKEY = 0 by decide, if_false, exec_pure, exec_bind,
      exec_get, Prog.Outcome.bind_done, leave, hsh, exec_ite, Bool.false_eq_true, exec_btgerr]
    refine Or.inr ⟨entries_missed hat.before hat.after hent,trivial,?_⟩
    refine (h'.withCtx ?_).leaves hw (hspot.keeps.clear.clear.withCtx ?_ ?_ ?_ ?_)
      (by rw [hspot.inorder])
    exacts [rfl,rfl,hsh.symm,rfl,rfl]

end Replace

end Calls

end Btlib
