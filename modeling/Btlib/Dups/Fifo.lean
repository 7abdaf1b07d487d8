import Btlib.Dups.Selected

namespace Btlib

open Multiway Links

variable [Build] {n m : Nat} {s s' : St} {fs fs' D D' os : List Int} {nd nd' : Int → Nat} {live live' : Finset (Int × Nat)}
  {ent ent' : Int × Nat → DKey} {μ ν : Key → List Int} {blk : Int} {l r : List KeyEnt} {e e' : KeyEnt} {k key : Key}
  {v val : Int} {vs : List Int} {ps : List (Int × Nat)} {keys : Nat}
  {o : Standing}

section Hits

variable {p : KeyPath (n + 1) m} {ks : List (KeyTree n)}

-- The last found position is that of the entry `e` and of its first value.
structure Hit (s : St) (p : KeyPath (n + 1) m) (blk : Int) (l : List KeyEnt) (e : KeyEnt) (r : List KeyEnt)
    (ks : List (KeyTree n)) (fs D os : List Int) (nd : Int → Nat) (live : Finset (Int × Nat)) (ent : Int × Nat → DKey)
    (μ : Key → List Int) (ps : List (Int × Nat)) : Prop extends Aimed s p blk l e r where
  listed : Listed s (p.plug (BTree.node blk (l ++ e :: r) ks)) fs D os nd live ent μ
  chained : Chained live ent e ps (μ e.key)
  exct : s.ctx.lf.lfexct = true
  draddr : s.ctx.lf.draddr = front addr ZNULL ps
  err : s.ctx.err.qerror = 0

theorem Listed.found (h : Listed s (p.plug (BTree.node blk (l ++ e :: r) ks)) fs D os nd live ent μ)
    (hat : Aimed s p blk l e r) (herr : s.ctx.err.qerror = 0) :
    Found s ((p.plug (BTree.node blk (l ++ e :: r) ks)).ids ++ os) blk l.length e := by
  have hp := h.formed.placed
  exact ⟨List.mem_append_left _ hp.mem,Int.natCast_nonneg _,hp.loc,hp.ent,hat.lfblk,hat.lfpos,herr⟩

theorem Hit.found (h : Hit s p blk l e r ks fs D os nd live ent μ ps) :
    Found s ((p.plug (BTree.node blk (l ++ e :: r) ks)).ids ++ os) blk l.length e :=
  h.listed.found h.toAimed h.err

theorem Hit.withErr {err : Err} (h : Hit s p blk l e r ks fs D os nd live ent μ ps) (herr : err.qerror = 0) :
    Hit { s with ctx.err := err } p blk l e r ks fs D os nd live ent μ ps :=
  ⟨⟨⟨h.lfkey,h.lfblk,h.lfpos,h.stack,h.depth⟩,h.room⟩,h.listed.withCtx rfl,h.chained,h.exct,h.draddr,herr⟩

omit [Build] in
theorem Edit.writable (h : Edit s s' os blk l.length e) (hw : Writable s) : Writable s' := by
  refine ⟨?_,?_,h.mode.trans hw.mode⟩
  · rw [h.ctx]
    exact hw.isopen
  · rw [h.ctx]
    exact hw.shared

-- The last found position once the entry has changed, with the same key.
theorem Aimed.edit (h : Aimed s p blk l e r) (hed : Edit s s' os blk l.length e') (hkey : e'.key = e.key) :
    Aimed s' p blk l e' r := by
  refine ⟨⟨hed.lfkey.trans (h.lfkey.trans hkey.symm),hed.blk.trans h.lfblk,hed.pos.trans h.lfpos,?_,h.depth⟩,fun hm => ?_⟩
  · rw [hed.ctx]
    exact h.stack
  · have hroom := h.room (hed.mode ▸ hm)
    simpa using hroom

theorem Hit.rootWf (h : Hit s p blk l e r ks fs D os nd live ent μ ps) :
    (p.plug (BTree.node blk (l ++ e :: r) ks)).RootWf ZMXKEY := h.listed.formed.wf

theorem Hit.onDup (h : Hit s p blk l e r ks fs D os nd live ent μ ps) : OnDup s ps ([] : List Int).length :=
  onDup_first h.draddr

theorem Hit.ensues (h : Hit s p blk l e r ks fs D os nd live ent μ ps) {qs : List (Int × Nat)} (hw : Writable s)
    (ht : Turns s s' ((p.plug (BTree.node blk (l ++ e :: r) ks)).ids ++ os) blk l.length live ent e vs fs' D' nd' live'
      ent' e' qs) (hvs : ∀ v ∈ vs, Fits v)
    (hp : Position s' (p.plug (BTree.node blk (l ++ e' :: r) ks)) live' ent' (fun x => Function.update μ e.key vs x.key) o) :
    s'.ctx.shared = false ∧ s'.ctx.err.qerror = 0 ∧
      Ensues s os (p.plug (BTree.node blk (l ++ e :: r) ks)).inorder.length (Function.update μ e.key vs) o s' := by
  have hedit := ht.edit
  have hw' := hedit.writable hw
  refine ⟨hw'.shared,?_,(h.listed.turn ht hvs).ensues hw' (hedit.sameRoot h.listed.whole.dups.root) ?_ hp⟩
  · rw [hedit.ctx]
    exact h.err
  · obtain ⟨A,B,hin⟩ := h.listed.formed.placed.around
    rw [hin, hin]
    simp

end Hits

-- `bfndky` of a root with duplicates: at the first value of the key, or at the gap where the key belongs.
theorem Listed.ends_bfndky {t : KeyTree n} {Q : (Int × Int) × St → Prop} (h : Listed s t fs D os nd live ent μ)
    (hb : Sized) (hcap : 3 ≤ ZMXKEY) (hw : Writable s) (key : Key) (hfuel : 2 * t.inorder.length + 3 ≤ FUEL)
    (hfound : ∀ {n m : Nat} (p : KeyPath (n + 1) m) (blk : Int) (l : List KeyEnt) (e : KeyEnt) (r : List KeyEnt)
      (ks : List (KeyTree n)) (s' : St) (fs' : List Int) (ps : List (Int × Nat)) (v : Int) (vs : List Int),
      Spot s.clear s' (p.plug (BTree.node blk (l ++ e :: r) ks)) fs' (D ++ os) ⟨t,fs,keycpy key⟩ → e.key = keycpy key →
      Hit s' p blk l e r ks fs' D os nd live ent μ ps → μ e.key = v :: vs → Q ((0, v), s'))
    (hmissed : ∀ {m : Nat} (f : KeyFrame 0) (p : KeyPath 1 m) (s' : St) (fs' : List Int) (v : Int),
      Spot s.clear s' ((Path.step f p).plug BTree.nil) fs' (D ++ os) ⟨t,fs,keycpy key⟩ → AtGap s' f p (keycpy key) →
      Listed s' ((Path.step f p).plug BTree.nil) fs' D os nd live ent μ → μ (keycpy key) = [] →
      Q ((QNOKEY, v), { s' with ctx.err := ⟨"BFNDKY", QNOKEY, .key (keycpy key)⟩ })) :
    (exec (bfndky key) s).Ends (Refused s.ctx.super.scroot) Q := by
  have hclear : Listed s.clear t fs D os nd live ent μ := h.withCtx rfl
  have hf := h.formed
  refine Btlib.ends_bfndky hcap hw.isopen hw.shared hf.pos hf.index hf.wf hf.sorted hfuel ?_ ?_
  · intro n m p blk l e r ks s' fs' hspot he hat
    have hl := hclear.ofSpot hb hspot
    have herr : s'.ctx.err = ⟨"", 0, .none⟩ := hspot.err
    have herr0 : s'.ctx.err.qerror = 0 := by rw [herr]
    obtain ⟨v,vs,ps,hvs,hc⟩ := hl.values mem_inorder_entry
    obtain ⟨code,hrun⟩ := hl.whole.dups.exec_btduppos hb (hl.found hat.toAimed herr0) hat.draddr hat.exct hc
    rw [hrun]
    refine ⟨hspot.keeps.shared.trans hw.shared,?_⟩
    simp only [herr0]
    refine hfound p blk l e r ks _ fs' ps v vs (hspot.withCtx rfl rfl rfl rfl rfl) he ?_ hvs
    exact ⟨⟨⟨hat.lfkey,hat.lfblk,hat.lfpos,hat.stack,hat.depth⟩,hat.room⟩,hl.withCtx rfl,hvs ▸ hc,hat.exct,rfl,herr0⟩
  · intro m f p s' fs' v hspot hat
    have hl := hclear.ofSpot hb hspot
    refine hmissed f p s' fs' v hspot hat hl (hl.absent _ fun x hx => ?_)
    rw [Path.inorder_plug, BTree.inorder_zero, List.append_nil] at hx
    rcases List.mem_append.1 hx with hx | hx
    · exact (hat.before x hx).ne
    · exact (hat.after x hx).ne'

omit [Build] in
theorem named_keycpy (hkey : ∀ c ∈ key, c ≠ 0) : Dups.Named key (keycpy key) :=
  ⟨rfl,List.length_take_le _ _,fun c hc => hkey c (List.mem_of_mem_take hc)⟩


-- What `bdelky` asks for where it takes out the only value of a key: that the key is not longer than the blocks keep
-- it, and that the tree has room.
def CanDrop (s : St) (os : List Int) (μ : Key → List Int) (key : Key) : Prop :=
  (μ (keycpy key)).length = 1 → key.length ≤ 31 ∧ ∀ (m : Nat) (t : KeyTree m) (fs D : List Int) (nd : Int → Nat)
    (live : Finset (Int × Nat)) (ent : Int × Nat → DKey), Listed s t fs D os nd live ent μ → RoomFor key t

-- The calls of one key, on a root that has `keys` of them at most.
section Calls

variable (hb : Sized) (hcap : 8 ≤ ZMXKEY) (h : Valued s os μ keys) (hfuel : 2 * keys + 3 ≤ FUEL)
include hb hcap h hfuel

-- `bfndky` returns the first value, and selects it.
theorem Valued.ends_find (key : Key) : (exec (bfndky key) s).Ends (Refused s.ctx.super.scroot) fun r =>
    (∃ c, μ (keycpy key) = [] ∧ r.1.1 = QNOKEY ∧ c.cur = none ∧ Ensues s os keys μ (.place c) r.2) ∨
      ∃ v vs c, μ (keycpy key) = v :: vs ∧ r.1 = (0, v) ∧ c.cur = some (keycpy key, v) ∧
        Ensues s os keys μ (.place c) r.2 := by
  obtain ⟨hw,m,t,fs,D,nd,live,ent,hl,hlen⟩ := h
  refine hl.ends_bfndky hb (by omega) hw key (by omega) ?_ ?_
  · intro n m p blk l e r ks s' fs' ps v vs hspot he hhit hvs
    obtain ⟨c,hcur,hst⟩ := hhit.stands (fun e => μ e.key) hhit.rootWf hhit.chained hhit.exct hhit.draddr hvs
    refine Or.inr ⟨v,vs,c,he ▸ hvs,rfl,he ▸ hcur,hhit.listed.ensues (hw.keeps hspot.keeps.clear) hspot.keeps.clear.sameRoot
      ?_ (Or.inl hst)⟩
    rw [hspot.inorder]
    exact hlen
  · intro m f p s' fs' v hspot hat hl' hnil
    have hw' := hw.keeps hspot.keeps.clear
    refine Or.inl ⟨_,hnil,rfl,?_,Listed.ensues (hl'.withCtx ?_) ⟨hw'.isopen,hw'.shared,hw'.mode⟩ ?_ ?_
      ((hat.position fun e => μ e.key).withCtx rfl rfl rfl rfl)⟩
    · rfl
    · rfl
    · exact hspot.keeps.clear.sameRoot.withCtx rfl
    · rw [hspot.inorder]
      exact hlen

-- `binsky` appends a value, where the root allows duplicates; the first one makes an entry.
theorem Valued.ends_binsky (hkey : ∀ c ∈ key, c ≠ 0) (hval : Fits val) :
    (exec (binsky key val) s).Ends (Refused s.ctx.super.scroot) fun r =>
      (((s.disk.block s.ctx.super.scroot).misc = 0 ∧ μ (keycpy key) ≠ []) ∧ r.1 = QDUP ∧ ∃ o, Ensues s os keys μ o r.2) ∨
        ¬ ((s.disk.block s.ctx.super.scroot).misc = 0 ∧ μ (keycpy key) ≠ []) ∧ r.1 = 0 ∧
          ∃ o, Ensues s os (keys + 1) (Function.update μ (keycpy key) (μ (keycpy key) ++ [val])) o r.2 := by
  obtain ⟨hw,m,t,fs,D,nd,live,ent,hl,hlen⟩ := h
  rw [binsky, exec_api hw.isopen, errOf, exec_bind]
  refine Prog.Outcome.Ends.bind (P := fun r => 
    (((s.disk.block s.ctx.super.scroot).misc = 0 ∧ μ (keycpy key) ≠ []) ∧ r.2.ctx.err.qerror = QDUP ∧
      ∃ o, Ensues s os keys μ o r.2) ∨
        ¬ ((s.disk.block s.ctx.super.scroot).misc = 0 ∧ μ (keycpy key) ≠ []) ∧ r.2.ctx.err.qerror = 0 ∧
          ∃ o, Ensues s os (keys + 1) (Function.update μ (keycpy key) (μ (keycpy key) ++ [val])) o r.2)
    (ends_locked hw.shared ?_) fun r hr => by simpa using hr
  have hmode : s.clear.ctx.super.smode = 0 := hw.mode
  have hclear : Listed s.clear t fs D os nd live ent μ := hl.withCtx rfl
  have hwc : Writable s.clear := ⟨hw.isopen,hw.shared,hw.mode⟩
  simp only [exec_bind, exec_get, Prog.Outcome.bind_done, exec_ite, hmode, ne_eq, not_true_eq_false, if_false,
    exec_bgtinf hclear.whole.dups.has_root, Block.getInf_ZMISC]
  rw [Prog.Outcome.ends_bind]
  refine hclear.ends_bfndky hb (by omega) hwc (keycpy key) (by omega) ?_ ?_
  · intro n m p blk l e r ks s' fs' ps v vs hspot he hhit hvs
    rw [keycpy_keycpy] at he hspot
    have hk := hspot.keeps.clear.clear
    have hne : μ (keycpy key) ≠ [] := by
      rw [← he, hvs]
      exact List.cons_ne_nil _ _
    have hsame : (p.plug (BTree.node blk (l ++ e :: r) ks)).inorder.length = t.inorder.length :=
      congrArg List.length hspot.inorder
    by_cases hmisc : (s.disk.block s.ctx.super.scroot).misc = 0
    · -- without duplicates the search is all there is
      have hnot : ¬ ((0 : Int) = QNOKEY ∨ (0 : Int) = 0 ∧ (s.clear.disk.block s.clear.ctx.super.scroot).misc ≠ 0) := by
        rintro (hno | ⟨-,hno⟩)
        · exact absurd hno (by decide)
        · exact hno hmisc
      obtain ⟨c,-,hst⟩ := hhit.stands (fun e => μ e.key) hhit.rootWf hhit.chained hhit.exct hhit.draddr hvs
      have hw' := hw.keeps hk
      rw [if_neg hnot, exec_bterr s' _ _ _ (by decide) (by decide), if_pos hhit.err]
      refine ⟨hw'.shared,Or.inl ⟨⟨hmisc,hne⟩,rfl,_,(hhit.listed.withCtx ?_).ensues ⟨hw'.isopen,hw'.shared,hw'.mode⟩
        (hk.sameRoot.withCtx rfl) (hsame ▸ hlen) (o := .place c) (Or.inl (hst.withCtx rfl rfl))⟩⟩
      rfl
    have hw' : Writable s'.clear := ⟨(hw.keeps hk).isopen,(hw.keeps hk).shared,(hw.keeps hk).mode⟩
    have hh : Hit s'.clear p blk l e r ks fs' D os nd live ent μ ps := hhit.withErr rfl
    have hz : exec bterr0 s' = .done ((), s'.clear) := rfl
    have hfits := hh.listed.fits e.key
    rw [if_pos (Or.inr ⟨rfl,hmisc⟩)]
    simp only [binskyPut, exec_bind, hz, Prog.Outcome.bind_done, decide_true, if_true, exec_pure]
    refine (hh.listed.whole.dups.ends_btdupkey (E := Refused s.ctx.super.scroot) hb hh.found (he ▸ named_keycpy hkey) hval
      hfits hh.chained fun o d ho => Or.inl ho).bind fun a ha => ?_
    obtain ⟨fs2,D2,nd2,live2,ent2,e2,ps2,ht,hlf,hne2,hfront⟩ := ha
    have hall : ∀ u ∈ μ e.key ++ [val], Fits u := fun u hu => by
      rcases List.mem_append.1 hu with hu | hu
      · exact hfits u hu
      · rw [List.mem_singleton] at hu
        exact hu ▸ hval
    have hat := hh.toAimed.edit ht.edit ht.key
    have hwf := (hh.listed.turn ht hall).formed.wf
    have hvals : Function.update μ e.key (μ e.key ++ [val]) e2.key = μ e.key ++ [val] := by
      rw [ht.key, Function.update_self]
    have hpos : ∃ o, Position a.2 (p.plug (BTree.node blk (l ++ e2 :: r) ks)) live2 ent2
        (fun x => Function.update μ e.key (μ e.key ++ [val]) x.key) o := by
      rcases eq_or_ne ps [] with rfl | hps
      · -- the entry was plain, and the duplicates that it has now are not selected
        exact hat.whole _ hwf (hvals.symm ▸ ht.chained) (by rw [hlf, hh.exct]) (by rw [hlf, hh.draddr]; rfl) hne2
      · obtain ⟨c,-,hst⟩ := hat.stands (fun x => Function.update μ e.key (μ e.key ++ [val]) x.key) hwf
          (hvals.symm ▸ ht.chained) (by rw [hlf, hh.exct]) (by rw [hlf, hh.draddr, hfront hps])
            (hvals.trans (by rw [hvs, List.cons_append]))
        exact ⟨.place c,Or.inl hst⟩
    obtain ⟨o,ho⟩ := hpos
    obtain ⟨hsh,herr,hlast⟩ := hh.ensues hw' ht hall ho
    rw [← he]
    have hclear' : SameRoot s s'.clear := hk.sameRoot.withCtx rfl
    exact ⟨hsh,Or.inr ⟨fun hno => hmisc hno.1,herr,o,hclear'.trans hlast.same,hlast.selects.mono (by omega)⟩⟩
  · intro m f p s' fs' v hspot hat hl' hnil
    rw [keycpy_keycpy] at hat hnil hspot
    have hk := hspot.keeps.clear.clear
    have hmode' : s'.ctx.super.smode = 0 := hk.mode.trans hw.mode
    have hatc : AtGap { s' with ctx.err := ⟨"BFNDKY",QNOKEY,.key (keycpy (keycpy key))⟩ } f p (keycpy key) :=
      ⟨hat.lf,hat.stack,hat.before,hat.after,hat.room⟩
    rw [if_pos (Or.inl rfl)]
    rw [show decide (QNOKEY = 0) = false by decide,
      hatc.exec_binskyPut (hl'.formed.index.withCtx rfl) hmode' rfl (by omega)]
    have hkeeps : Keeps s' { s'.clear with
        disk := s'.disk.put f.id ((s'.disk.block f.id).putky ⟨keycpy key,val,ZNULL⟩ ZNULL ZNULL) } (D ++ os) :=
      hspot.index.keeps_put (Index.mem_plug (p := p) (c := f.fill BTree.nil) |>.2 (Or.inl List.mem_cons_self))
        (Block.putky_sameInfo _ ⟨keycpy key,val,ZNULL⟩ ZNULL ZNULL) rfl rfl rfl rfl
    have hnew := hl'.insert hb hat hmode' (named_keycpy hkey).short hval hkeeps rfl rfl
    obtain ⟨o,ho⟩ := hat.inserted _ hnew.formed.index hl'.formed.wf rfl rfl
    refine ⟨hk.shared.trans hw.shared,Or.inr ⟨fun hno => hno.2 hnil,rfl,o,?_⟩⟩
    rw [hnil, List.nil_append]
    refine hnew.ensues ((hw.keeps hk).keeps hkeeps) (hk.sameRoot.trans hkeeps.sameRoot) ?_ ho
    have hold := congrArg List.length hspot.inorder
    rw [Path.inorder_plug, BTree.inorder_zero, List.append_nil] at hold
    rw [inorder_insert]
    simp only [List.length_append, List.length_cons] at hold ⊢
    omega

theorem Valued.ends_modifyKey {fn : String} {body : BT Unit} (key : Key)
    (hbody : ∀ {n m m' : Nat} {t : KeyTree m'} {fs : List Int} (p : KeyPath (n + 1) m) (blk : Int) (l : List KeyEnt)
      (e : KeyEnt) (r : List KeyEnt) (ks : List (KeyTree n)) (s' : St) (fs' D : List Int) (nd : Int → Nat)
      (live : Finset (Int × Nat)) (ent : Int × Nat → DKey) (ps : List (Int × Nat)) (v : Int) (vs : List Int),
      Listed s t fs D os nd live ent μ → Spot s.clear.clear s' (p.plug (BTree.node blk (l ++ e :: r) ks)) fs' (D ++ os)
        ⟨t,fs,keycpy key⟩ → e.key = keycpy key → Hit s' p blk l e r ks fs' D os nd live ent μ ps → μ e.key = v :: vs →
      Writable s' → (p.plug (BTree.node blk (l ++ e :: r) ks)).inorder.length ≤ keys →
      (exec body s').Ends (Refused s.ctx.super.scroot) fun a =>
        a.2.ctx.shared = false ∧ a.2.ctx.err.qerror = 0 ∧ ∃ o, Ensues s' os keys ν o a.2) :
    (exec (modifyKey fn (some key) body) s).Ends (Refused s.ctx.super.scroot) fun a =>
      (μ (keycpy key) = [] ∧ a.1 = QNOKEY ∧ ∃ o, Ensues s os keys μ o a.2) ∨
        μ (keycpy key) ≠ [] ∧ a.1 = 0 ∧ ∃ o, Ensues s os keys ν o a.2 := by
  obtain ⟨hw,m,t,fs,D,nd,live,ent,hl,hlen⟩ := h
  have hclear : Listed s.clear t fs D os nd live ent μ := hl.withCtx rfl
  have hwc : Writable s.clear := ⟨hw.isopen,hw.shared,hw.mode⟩
  have hshared : s.clear.ctx.shared = false := hw.shared
  rw [modifyKey, exec_api hw.isopen, errOf, exec_bind]
  simp only [exec_bind, exec_get, Prog.Outcome.bind_done, exec_ite, within, enter, hshared, Bool.false_eq_true, if_false,
    exec_pure, if_true, findKey]
  rw [if_neg (not_not.2 (show s.clear.ctx.super.smode = 0 from hw.mode))]
  rw [Prog.Outcome.ends_bind, Prog.Outcome.ends_bind, Prog.Outcome.ends_bind, Prog.Outcome.ends_bind]
  refine hclear.ends_bfndky hb (by omega) hwc key (by omega) ?_ ?_
  · intro n m p blk l e r ks s' fs' ps v vs hspot he hhit hvs
    simp only [Prog.Outcome.ends_done, if_true]
    refine (hbody p blk l e r ks s' fs' D nd live ent ps v vs hl hspot he hhit hvs (hw.keeps hspot.keeps.clear.clear)
      (hspot.inorder ▸ hlen)).mono (fun _ _ h => h) fun a ha => ?_
    obtain ⟨hsh,herr,o,hlast⟩ := ha
    simp only [leave, exec_bind, exec_get, Prog.Outcome.bind_done, exec_ite, hsh, Bool.false_eq_true, if_false,
      exec_pure, Prog.Outcome.ends_done, exec_btgerr]
    refine Or.inr ⟨?_,herr,o,hspot.keeps.clear.clear.sameRoot.trans hlast.same,hlast.selects⟩
    rw [← he, hvs]
    exact List.cons_ne_nil _ _
  · intro m f p s' fs' v hspot hat hl' hnil
    have hk := hspot.keeps.clear.clear
    have hw' := hw.keeps hk
    simp only [Prog.Outcome.ends_done, show ¬ QNOKEY = 0 by decide, if_false, exec_pure, exec_bind, exec_get,
      Prog.Outcome.bind_done, leave, hw'.shared, exec_ite, Bool.false_eq_true, exec_btgerr]
    refine Or.inl ⟨hnil,trivial,_,Listed.ensues (hl'.withCtx ?_) ⟨hw'.isopen,?_,hw'.mode⟩ (hk.sameRoot.withCtx rfl) ?_
      ((hat.position fun e => μ e.key).withCtx rfl rfl rfl rfl)⟩
    · rfl
    · rfl
    · rw [hspot.inorder]
      exact hlen

-- `bupdky` replaces the first value.
theorem Valued.ends_bupdky (key : Key) (hval : Fits val) :
    (exec (bupdky (some key) val) s).Ends (Refused s.ctx.super.scroot) fun a =>
      (μ (keycpy key) = [] ∧ a.1 = QNOKEY ∧ ∃ o, Ensues s os keys μ o a.2) ∨ μ (keycpy key) ≠ [] ∧ a.1 = 0 ∧
        ∃ o, Ensues s os keys (Function.update μ (keycpy key) (val :: (μ (keycpy key)).tail)) o a.2 := by
  refine h.ends_modifyKey hb hcap hfuel key ?_
  intro n m m' t fs p blk l e r ks s' fs' D nd live ent ps v vs _ hspot he hhit hvs hw' hlen
  have hfits := hhit.listed.fits e.key
  rw [hvs] at hfits
  have hc : Chained live ent e ps ([] ++ v :: vs) := hvs ▸ hhit.chained
  obtain ⟨s2,live2,ent2,e2,hrun,hctx,ht⟩ := hhit.listed.whole.dups.exec_bmodky hb hhit.found hhit.onDup hval hc
  rw [List.nil_append] at ht
  have hall : ∀ u ∈ val :: vs, Fits u := fun u hu => by
    rcases List.mem_cons.1 hu with rfl | hu
    · exact hval
    · exact hfits u (List.mem_cons_of_mem _ hu)
  have hvals : Function.update μ e.key (val :: vs) e2.key = val :: vs := by
    rw [ht.key, Function.update_self]
  obtain ⟨c,-,hst⟩ := (hhit.toAimed.edit ht.edit ht.key).stands
    (fun x => Function.update μ e.key (val :: vs) x.key) (hhit.listed.turn ht hall).formed.wf (hvals.symm ▸ ht.chained) (by rw [hctx, hhit.exct])
      (by rw [hctx, hhit.draddr]) hvals
  obtain ⟨hsh,herr,hlast⟩ := hhit.ensues (o := .place c) hw' ht hall (Or.inl hst)
  simp only [exec_bind, exec_get, Prog.Outcome.bind_done, hhit.lfblk, hhit.lfpos, hrun, Prog.Outcome.ends_done]
  refine ⟨hsh,herr,.place c,?_⟩
  rw [← he, hvs, List.tail_cons]
  exact hlast.mono hlen

-- `bdelky` removes the first value, and the key with the last one.
theorem Valued.ends_bdelky (key : Key) (hclears : CanDrop s os μ key) :
    (exec (bdelky (some key)) s).Ends (Refused s.ctx.super.scroot) fun a =>
      (μ (keycpy key) = [] ∧ a.1 = QNOKEY ∧ ∃ o, Ensues s os keys μ o a.2) ∨ μ (keycpy key) ≠ [] ∧ a.1 = 0 ∧
        ∃ o, Ensues s os keys (Function.update μ (keycpy key) (μ (keycpy key)).tail) o a.2 := by
  refine h.ends_modifyKey hb hcap hfuel key ?_
  intro n m m' t fs p blk l e r ks s' fs' D nd live ent ps v vs hl hspot he hhit hvs hw' hlen
  have hfits := hhit.listed.fits e.key
  rw [hvs] at hfits
  have hroot : s'.ctx.super.scroot = s.ctx.super.scroot := hspot.keeps.root
  have hc : Chained live ent e ps ([] ++ v :: vs) := hvs ▸ hhit.chained
  obtain ⟨s2,fs2,D2,live2,ent2,⟨hnil,hrun,hd,hfr,hed⟩ | ⟨hne,hrun,e2,us,q,ws,hps,hus,ht,hlf,hq⟩⟩ :=
    hhit.listed.whole.dups.exec_btdeldup hb hhit.found hhit.onDup hc
  · -- the last value of the key: its entry goes too
    obtain rfl : vs = [] := hnil
    obtain ⟨hshort,hroom⟩ := hclears (by rw [← he, hvs]; rfl)
    have hkey : keycpy key = key := keycpy_eq hshort
    have hformed := hed.formed hhit.listed.formed rfl hd
    have hw2 := hed.writable hw'
    have herr2 : s2.ctx.err.qerror = 0 := by
      rw [hed.ctx]
      exact hhit.err
    have hroom' : RoomFor e.key (p.plug (BTree.node blk (l ++ e :: r) ks)) := by
      rw [he]
      exact hspot.roomy hcap (hkey.symm ▸ hroom _ t fs D nd live ent hl)
    have hroot2 : s2.ctx.super.scroot = s.ctx.super.scroot := hed.root.trans hroot
    have hends := (hhit.toAimed.edit hed rfl).ends_bdelk1Key hformed hw2 hcap hroom' herr2 (by omega)
    rw [hroot2, he, hkey] at hends
    simp only [bdelk1, exec_bind, exec_get, Prog.Outcome.bind_done, exec_ite, hhit.exct, not_true_eq_false, if_false,
      hrun, if_true]
    refine hends.mono (fun _ _ h => h) fun a ha => ?_
    obtain ⟨m2,t2,fs3,hout⟩ := ha
    have hnew := hhit.listed.without hb hed hd hfr hout
    have hw3 := hw2.keeps hout.keeps
    obtain ⟨f,g,rfl,hgap⟩ := hout.gap
    rw [← he, hvs, List.tail_cons]
    refine ⟨hw3.shared,hout.err,_,hnew.ensues hw3
      ((hed.sameRoot hhit.listed.whole.dups.root).trans hout.keeps.sameRoot) ?_ (hgap.position _)⟩
    obtain ⟨A,B,hT,ht⟩ := hout.drop
    rw [hT] at hlen
    rw [ht]
    simp only [List.length_append, List.length_cons] at hlen ⊢
    omega
  · obtain rfl : us = [] := List.length_eq_zero_iff.1 hus
    have hall : ∀ u ∈ vs, Fits u := fun u hu => hfits u (List.mem_cons_of_mem _ hu)
    have hvals : Function.update μ e.key vs e2.key = vs := by rw [ht.key, Function.update_self]
    have hws : ws ≠ [] := fun hws => by
      have hlen' := hhit.chained.length_eq (hps ▸ List.cons_ne_nil q ws)
      rw [hvs, hps, hws] at hlen'
      exact hne (List.length_eq_zero_iff.1 (Nat.succ.inj hlen').symm)
    have hc2 : Chained live2 ent2 e2 ([] ++ ws) (Function.update μ e.key vs e2.key) := hvals.symm ▸ ht.chained
    obtain ⟨o,ho⟩ := (hhit.toAimed.edit ht.edit ht.key).deleted (fun x => Function.update μ e.key vs x.key)
      (hhit.listed.turn ht hall).formed.wf hc2 (hvals.trans (List.nil_append vs).symm) rfl hws (by rw [hlf]) (by rw [hlf, hhit.draddr, hps]; rfl) (ht.key.symm ▸ hq)
    obtain ⟨hsh,herr,hlast⟩ := hhit.ensues hw' ht hall ho
    have hz : (0 : Int) ≠ ZNULL := by decide
    simp only [bdelk1, exec_bind, exec_get, Prog.Outcome.bind_done, exec_ite, hhit.exct, not_true_eq_false, if_false,
      hrun, hz, exec_pure, Prog.Outcome.ends_done]
    refine ⟨hsh,herr,o,?_⟩
    rw [← he, hvs, List.tail_cons]
    exact hlast.mono hlen

end Calls

-- Each key of a root that allows duplicates has its values, in the order in which they came.
def Fifo (s : St) (os : List Int) (μ : Key → List Int) (keys : Nat) : Prop :=
  (s.disk.block s.ctx.super.scroot).misc ≠ 0 ∧ Valued s os μ keys

-- What a call leaves behind: the same root, with the values of `ν`.
structure Lasts (s : St) (os : List Int) (keys : Nat) (ν : Key → List Int) (s' : St) : Prop where
  root : s'.ctx.super.scroot = s.ctx.super.scroot
  fifo : Fifo s' os ν keys

theorem Fifo.mono {keys' : Nat} (h : Fifo s os μ keys) (hle : keys ≤ keys') : Fifo s os μ keys' := ⟨h.1,h.2.mono hle⟩

theorem Ensues.lasts (h : Ensues s os keys ν o s') (hd : (s.disk.block s.ctx.super.scroot).misc ≠ 0) :
    Lasts s os keys ν s' := ⟨h.same.root,h.same.misc ▸ hd,h.selects.valued⟩

end Btlib
