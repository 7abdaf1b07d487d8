import Btlib.Cache.Close
import Btlib.Cache.Names
import Btlib.Index.Catalog

namespace Btlib

section Opening

variable [Build] {α β : Type} {c : Ctx} {k : Cache} {s : St} {t : SlotFacts}

-- A cache to which the lock is granted whenever it asks, with the file as it was left.
def Cache.alone : Prog.Machine Op Res Cache := fun o k => Cache.shown (fun _ => (true, k.file)) o k

theorem Cache.mirrors_alone : Cache.Mirrored Cache.alone := fun o k => Cache.mirrors_shown (fun _ => (true, k.file)) o k

-- The handle when its lock is granted.
def Ctx.entering (c : Ctx) : Ctx :=
  { c with
    err := ⟨"",0,.none⟩, shared := false, isopen := true, lckcnt := 1, lf := ⟨[],ZNULL,ZNULL,false,ZNULL⟩,
    super := { c.super with smod := 0, scroot := 0 } }

-- What is left of `btopn` then, and when the superroot is read, and when the default root is found.
def btopnFound (mode : Int) : BT Int := do
  setSuper fun p => { p with smode := mode }
  if (← btgerr) ≠ 0 then btopnFail
  else
    leave
    btgerr

def btopnRead (mode : Int) : BT Int := do
  if (← btchgr (key "$$default")) ≠ 0 then btopnFail
  else btopnFound mode

def btopnEntered (mode : Int) : BT Int := do
  if (← brdsup) ≠ 0 then btopnFail
  else btopnRead mode

theorem run_btopn (mode : Int) : (btopn mode false c).run Cache.alone k =
    (btopnEntered mode c.entering).run Cache.alone { k.initcntrl with turn := k.turn + 1 } := rfl

-- What `brdsup` takes over from the superroot.
def Ctx.reads (c : Ctx) (b : Block) : Ctx :=
  { c with super := { c.super with snfree := b.misc, sfreep := b.nxblk, sblkmx := b.nblks } }

theorem exec_brdsup_reads (hz : s.disk.Has ZSUPER) (htype : (s.disk.block ZSUPER).btype = ZROOT)
    (hver : (s.disk.block ZSUPER).getInf .ZBTVER = ZVERS) (hmisc : (s.disk.block ZSUPER).misc ≠ LFSHDR) :
    exec brdsup s = .done (s.ctx.err.qerror, ⟨s.ctx.reads (s.disk.block ZSUPER),s.disk⟩) := by
  have hvers : ¬ ZVERS = LFSHDR := by decide
  simp only [brdsup, exec_bind, exec_brdblk, Disk.read_eq hz, Prog.Outcome.bind_done, exec_bgtinf hz,
    Block.getInf_ZBTYPE, Block.getInf_ZMISC, Block.getInf_ZNXBLK, Block.getInf_ZNBLKS, hver, htype, hmisc, ne_eq,
    not_true_eq_false, if_false, hvers, exec_setSuper, exec_btgerr]
  rfl

-- `x` reads, and writes nothing.
def Looks (x : BT α) : Prop := ∀ c t, t.counted = true → Minds x c t fun _ _ t' => t'.counted = true ∧ t'.size = t.size

omit [Build] in
theorem Looks.bind {x : BT α} {f : α → BT β} (hx : Looks x) (hf : ∀ a, Looks (f a)) : Looks (x >>= f) := fun c t ht =>
  (hx c t ht).bind fun a c' t' h => (hf a c' t' h.1).mono fun _ _ _ h' => ⟨h'.1,h'.2.trans h.2⟩

omit [Build] in
theorem Looks.ite {p : Prop} [Decidable p] {x y : BT α} (hx : Looks x) (hy : Looks y) : Looks (if p then x else y) := by
  split
  · exact hx
  · exact hy

omit [Build] in
@[simp] theorem Looks.pure (a : α) : Looks (pure a : BT α) := fun _ _ ht => ⟨ht,rfl⟩

omit [Build] in
@[simp] theorem looks_brdblk (blk : Int) : Looks (brdblk blk) := fun _ _ ht =>
  (minds_brdblk (Or.inl ht)).mono fun _ _ _ h => by
    obtain ⟨-,rfl,-⟩ := h
    exact ⟨ht,rfl⟩

omit [Build] in
@[simp] theorem looks_bterr (name : String) (code : Int) (arg : Arg) : Looks (bterr name code arg) := fun _ _ ht =>
  minds_ask_bind.2 ⟨trivial,fun _ _ => ⟨ht,rfl⟩⟩

omit [Build] in
@[simp] theorem looks_setSuper (g : Super → Super) : Looks (setSuper g) := fun _ _ ht => ⟨ht,rfl⟩

omit [Build] in
@[simp] theorem looks_btgerr : Looks btgerr := fun _ _ ht => ⟨ht,rfl⟩

@[simp] theorem looks_bgtinf (blk : Int) (type : Inf) : Looks (bgtinf blk type) := by
  unfold bgtinf
  with_reducible repeat' first | refine .bind ?_ fun _ => ?_ | refine .ite ?_ ?_ | split
  all_goals simp

theorem looks_brdsup : Looks brdsup := by
  unfold brdsup
  with_reducible repeat' first | refine .bind ?_ fun _ => ?_ | refine .ite ?_ ?_ | split
  all_goals simp

omit [Build] in
@[simp] theorem keepsFacts_setRoot (blk : Int) : KeepsFacts (setRoot blk) := fun _ _ h =>
  ⟨h.shared,h.size,h.counted,h.told⟩

omit [Build] in
@[simp] theorem keepsFacts_setRootName (name : Key) : KeepsFacts (setRootName name) := fun _ _ h =>
  ⟨h.shared,h.size,h.counted,h.told⟩

theorem keepsFacts_btchgr (hcap : 3 ≤ ZMXKEY) (root : Key) : KeepsFacts (btchgr root) := by
  refine keepsFacts_api _ _ (keepsFacts_errOf (keepsFacts_locked _ _ ?_))
  with_reducible repeat' first | refine .bind ?_ fun _ => ?_ | refine .ite ?_ ?_ | split
  all_goals first | exact keepsFacts_bfndky hcap _ | simp

end Opening

section Phases

theorem run_of_exec {α : Type} {x : BT α} {s s' : St} {a : α} (h : exec x s = .done (a, s')) :
    (x s.ctx).run plain s.disk = .done ((a, s'.ctx), s'.disk) := by
  unfold exec at h
  cases hr : (x s.ctx).run plain s.disk with
  | done r =>
      rw [hr] at h
      cases h
      rfl
  | stuck o s => rw [hr] at h; cases h
  | hung => rw [hr] at h; cases h

variable [Build] {n : Nat} {c : Ctx} {k : Cache} {d : Disk} {t : KeyTree n} {fs os : List Int} {D : Int}
  {m : Prog.Machine Op Res Cache} (hm : Cache.Mirrored m) (hslots : 3 ≤ ZMXBLK)
include hm hslots

theorem ends_brdsup (hpos : 0 ≤ k.file.size) (hlab : k.labelled < ZMXBLK) (hs : c.shared = false)
    (herr : c.err.qerror = 0) (hz : k.file.Has ZSUPER) (htype : (k.file.block ZSUPER).btype = ZROOT)
    (hver : (k.file.block ZSUPER).getInf .ZBTVER = ZVERS) (hmisc : (k.file.block ZSUPER).misc ≠ LFSHDR)
    (hsize : (k.file.block ZSUPER).nblks = k.file.size) :
    ((brdsup c).run m k.initcntrl).Ends (fun o k' => k'.Parts o ∧ ∀ d, k'.Shows d → plain o d ≠ none) fun r =>
      r.1 = (0, c.reads (k.file.block ZSUPER)) ∧ (BetweenCalls r.1.2 r.2 ∧ r.2.Keeps ∅ none) ∧ ∀ d, r.2.Shows d →
        k.initcntrl.Shows d ∧ (brdsup c).run plain d = .done (r.1, d) := by
  have hmod := MarksKept.slotSafe (marksKept_brdsup Nat.two_pos) c ∅ hs fun _ => by
    rw [Finset.card_empty]
    omega
  have hret := (Cache.fits_initcntrl hpos hlab none).retraces hm hmod (looks_brdsup c _ rfl).told
  have hview : k.initcntrl.view ZSUPER = k.file.block ZSUPER := by
    refine Cache.view_of_absent fun i _ hi => ?_
    exact absurd hi (by decide : ZNULL ≠ ZSUPER)
  have hends := hret.ends (F := fun _ _ => False) (P := fun r => r.1 = (0, c.reads (k.file.block ZSUPER)) ∧
    k.initcntrl.Shows r.2 ∧ (brdsup c).run plain r.2 = .done r) fun d hd => ?_
  · refine hends.mono (fun o k' he => ⟨he.1,fun d hd hn => he.2 d hd hn⟩) ?_
    rintro ⟨⟨code,c'⟩,k'⟩ ⟨⟨t,ht,⟨-,hfew⟩,⟨hcount,hlen⟩,htold⟩,hp⟩
    obtain ⟨hr,-⟩ := hp _ k'.shows_view
    obtain ⟨rfl,rfl⟩ := Prod.mk.inj hr
    have hlone : Lone (c.reads (k.file.block ZSUPER)) t.2 := .of_none hs (hsize.trans hlen.symm) hcount htold
    have hfree : t.1.1 = ∅ := Finset.subset_empty.1 (hfew trivial)
    exact ⟨rfl,⟨ht.betweenCalls hlone (by simp [hfree]),hfree ▸ ht.keeps.forget⟩,fun d hd => (hp d hd).2⟩
  · have hblock : d.block ZSUPER = k.file.block ZSUPER := (hd.block ZSUPER hz.1 hz.2).trans hview
    have hzd : d.Has ZSUPER := ⟨hz.1,hd.size ▸ hz.2⟩
    have hrun := exec_brdsup_reads (s := ⟨c,d⟩) hzd (by rw [hblock, htype]) (by rw [hblock, hver]) (by rwa [hblock])
    rw [run_of_exec hrun, hblock]
    exact ⟨by rw [herr],hd,by rw [run_of_exec hrun, hblock]⟩

theorem ends_default {B : Finset Int} (hcap : 3 ≤ ZMXKEY) (h : BetweenCalls c k) (hk : k.Keeps B none) (hB : B ⊆ {ZSUPER})
    (ho : c.isopen = true)
    (hl : 0 ≤ c.lckcnt) (hroot : c.super.scroot = ZSUPER) (hcat : ∀ d, k.Shows d → Catalog ⟨c,d⟩ t fs os D)
    (htype : ∀ d, k.Shows d → (d.block D).btype = ZROOT) (hD : D ∈ os) (hfuel : 2 * t.inorder.length + 3 ≤ FUEL) :
    ((btchgr (key "$$default") c).run m k).Ends
      (fun o k' => k'.Parts o ∧ ∀ d, k'.Shows d → plain o d = none → Refused ZSUPER o d) fun r =>
        (BetweenCalls r.1.2 r.2 ∧ Told c.super r.1.2.super) ∧ ∀ d', r.2.Shows d' → ∃ d, k.Shows d ∧
          (btchgr (key "$$default") c).run plain d = .done (r.1, d') ∧ r.1.1 = 0 ∧ r.1.2.err.qerror = 0 ∧
            r.1.2.super.scroot = D ∧ ∃ fs', Looked ⟨c,d⟩ ⟨r.1.2,d'⟩ fs' os D t.inorder.length := by
  have hcalm : Calm True c B := fun _ => hroot ▸ hB
  have hguard := guarded_btchgr (fun _ => hslots) hl (key "$$default") ho hcalm fun _ => by
    rw [hroot]
  have hlone : Lone c ⟨B,none,k.file.size,true,none,some c.super⟩ :=
    ⟨h.shared,h.size,rfl,fun p hp => by cases hp; exact .of_eq rfl⟩
  have hret := (h.fits hk (some c.super)).retraces hm hguard (keepsFacts_btchgr hcap (key "$$default") c _ hlone).told
  have hends := hret.ends (F := Refused ZSUPER) (P := fun r => ∃ d, k.Shows d ∧
      (btchgr (key "$$default") c).run plain d = .done r ∧ r.1.1 = 0 ∧ r.1.2.err.qerror = 0 ∧
        r.1.2.super.scroot = D ∧ ∃ fs', Looked ⟨c,d⟩ ⟨r.1.2,r.2⟩ fs' os D t.inorder.length) fun d hd => ?_
  · refine hends.mono (fun _ _ he => he) ?_
    rintro ⟨⟨code,c'⟩,k'⟩ ⟨⟨t',ht,⟨-,hcalm'⟩,hl',htold⟩,hp⟩
    exact ⟨⟨ht.betweenCalls hl' (hcalm'.card trivial),hl'.told _ htold⟩,hp⟩
  · have hrun := (hcat d hd).ends_btchgr hcap ho h.shared (hroot ▸ (hcat d hd).has) hD (htype d hd) hfuel
    refine (ends_exec.1 (hrun.mono (fun _ _ he => he) fun r hr => hr)).self.mono (fun _ _ he => he) ?_
    rintro r ⟨hr,h1,h2,h3,-,h4⟩
    exact ⟨d,hd,hr,h1,h2,h3,h4⟩

end Phases

section Saved

variable [Build] {n : Nat} {c c1 c' : Ctx} {k : Cache} {d f : Disk} {t : KeyTree n} {fs os rest : List Int} {D : Int}
  {μ : Map} {names keys : Nat}

-- A file that is closed: its superroot names the default root, whose tree has the entries of the map, and says where
-- the free blocks and the end of the file are. The blocks `rest` belong to neither tree.
structure Saved (f : Disk) (rest : List Int) (μ : Map) (names keys : Nat) : Prop where
  ver : (f.block ZSUPER).getInf .ZBTVER = ZVERS
  held : ∃ n m, ∃ t : KeyTree n, ∃ u : KeyTree m, ∃ fs, t.inorder.length ≤ names ∧ u.inorder.length ≤ keys ∧
    ∀ c : Ctx, Catalog ⟨c.reads (f.block ZSUPER),f⟩ t fs (u.ids ++ rest) u.link ∧
      Plain (St.at ⟨c.reads (f.block ZSUPER),f⟩ u.link) u fs (t.ids ++ rest) μ

-- The same with the default root at `D`.
structure SavedAt (f : Disk) (D : Int) (rest : List Int) (μ : Map) (names keys : Nat) : Prop where
  ver : (f.block ZSUPER).getInf .ZBTVER = ZVERS
  held : ∃ n m, ∃ t : KeyTree n, ∃ u : KeyTree m, ∃ fs, t.inorder.length ≤ names ∧ u.inorder.length ≤ keys ∧ u.link = D ∧
    ∀ c : Ctx, Catalog ⟨c.reads (f.block ZSUPER),f⟩ t fs (u.ids ++ rest) u.link ∧
      Plain (St.at ⟨c.reads (f.block ZSUPER),f⟩ u.link) u fs (t.ids ++ rest) μ

theorem SavedAt.saved (h : SavedAt f D rest μ names keys) : Saved f rest μ names keys := by
  obtain ⟨hver,n,m,t,u,fs,hlen,hkeys,-,hall⟩ := h
  exact ⟨hver,n,m,t,u,fs,hlen,hkeys,hall⟩

theorem Saved.at (h : Saved f rest μ names keys) : ∃ D, SavedAt f D rest μ names keys := by
  obtain ⟨hver,n,m,t,u,fs,hlen,hkeys,hall⟩ := h
  exact ⟨_,hver,n,m,t,u,fs,hlen,hkeys,rfl,hall⟩

-- A handle that is open on the default root.
structure Opened (c : Ctx) (k : Cache) (rest : List Int) (μ : Map) (names keys : Nat) : Prop where
  betweenCalls : BetweenCalls c k
  lckcnt : c.lckcnt = 1
  step : InStep c.super (k.view ZSUPER)
  ver : (k.view ZSUPER).getInf .ZBTVER = ZVERS
  trees : ∃ n, ∃ t : KeyTree n, ∃ fs os, Catalog ⟨c,⟨k.view,k.file.size⟩⟩ t fs os c.super.scroot ∧
    t.inorder.length ≤ names ∧ Root ⟨c,⟨k.view,k.file.size⟩⟩ (t.ids ++ rest) μ keys

theorem Catalog.link_mem (h : Catalog ⟨c,d⟩ t fs os D) : ZSUPER ∈ t.ids := by
  have hpos := h.pos
  obtain ⟨n,rfl⟩ : ∃ k, n = k + 1 := ⟨n - 1,by omega⟩
  have hlink : t.link = ZSUPER := h.index.link
  exact hlink ▸ Index.link_mem

theorem Catalog.savedAt (h : Catalog ⟨c1,d⟩ t fs os D) (hroot : Root ⟨c',f⟩ (t.ids ++ rest) μ keys)
    (hD : c'.super.scroot = D) (htells : Tells (f.block ZSUPER) c'.super)
    (hnew : Renewed (d.block ZSUPER) (f.block ZSUPER)) (hver : (d.block ZSUPER).getInf .ZBTVER = ZVERS)
    (hother : ∀ b ∈ t.ids ++ rest, b ≠ ZSUPER → f.block b = d.block b) (hlen : t.inorder.length ≤ names) :
    SavedAt f D rest μ names keys := by
  obtain ⟨-,m,u,fs',hp,hkeys⟩ := hroot
  have hkeysame : ∀ b, SameKeys (d.block b) (Function.update d.block ZSUPER (f.block ZSUPER) b) := by
    intro b
    by_cases hb : b = ZSUPER
    · subst hb
      rw [Function.update_self]
      exact hnew.keys
    · rw [Function.update_of_ne hb]
      exact .refl _
  have htree : ∀ b ∈ t.ids, f.block b = Function.update d.block ZSUPER (f.block ZSUPER) b := by
    intro b hb
    by_cases hbz : b = ZSUPER
    · rw [hbz, Function.update_self]
    · rw [Function.update_of_ne hbz]
      exact hother b (List.mem_append_left _ hb) hbz
  have hstore : ∀ c : Ctx, Store (St.at ⟨c.reads (f.block ZSUPER),f⟩ ZSUPER) fs' (t.ids ++ (u.ids ++ rest)) := fun c => by
    refine (hp.index.store.perm ?_).transfer rfl (fun _ _ => rfl) htells.1 htells.2.1
    rw [← List.append_assoc, ← List.append_assoc]
    exact List.perm_append_comm.append_right rest
  refine ⟨hnew.ver hver,n,m,t,u,fs',hlen,hkeys,hp.index.link.trans hD,fun c =>
    ⟨⟨⟨h.index.link,?_,?_,hstore c⟩,h.wf,h.pos,h.sorted,?_⟩,?_⟩⟩
  · exact (h.index.holds.sameKeys hkeysame).congr htree
  · intro b hb
    have hkind : (d.block b).btype = if b = ZSUPER then ZROOT else ZINUSE := h.index.kind b hb
    change (f.block b).btype = if b = ZSUPER then ZROOT else ZINUSE
    by_cases hbz : b = ZSUPER
    · subst hbz
      exact hnew.keys.btype hkind
    · rw [hother b (List.mem_append_left _ hb) hbz, hkind]
  · rw [hp.index.link, hD]
    exact h.named
  · exact hp.asIs ⟨hp.index.link,htells.1,htells.2.1,rfl,fun _ _ _ => rfl⟩

theorem Saved.blank (hcap : 2 ≤ ZMXKEY) (hver : (f.block ZSUPER).getInf .ZBTVER = ZVERS)
    (h : ∀ c : Ctx, Blank ⟨c.reads (f.block ZSUPER),f⟩) : Saved f [] (fun _ => none) 2 0 := by
  refine ⟨hver,1,1,namesTree,emptyTree,[],?_,?_,fun c => ⟨?_,?_⟩⟩
  · rw [inorder_namesTree]
    exact le_rfl
  · rw [inorder_emptyTree]
    exact le_rfl
  · rw [ids_emptyTree, List.append_nil]
    exact (h c).catalog hcap
  · rw [ids_namesTree, List.append_nil]
    exact (h c).plain

variable {m : Prog.Machine Op Res Cache} (hm : Cache.Mirrored m) (hcap : 8 ≤ ZMXKEY) (hslots : 3 ≤ ZMXBLK)
include hm hcap hslots

theorem Opened.ends_session (h : Opened c k rest μ names keys) (cs : List KeyCall)
    (hkeys : ∀ call ∈ cs, call.key.length ≤ 31) (hfuel : 2 * (keys + cs.length) + 3 ≤ FUEL)
    (hmet : ∀ d os, k.Shows d → KeyCall.Met os cs ⟨c,d⟩ μ) :
    ((KeyCall.session cs c).run m k).Ends
      (fun o k' => k'.Parts o ∧ ∀ d, k'.Shows d → plain o d = none → Refused c.super.scroot o d) fun r =>
        r.1.1 = ((KeyCall.ofMaps μ cs).1, 0) ∧ r.2.labelled < ZMXBLK ∧
          Saved r.2.file rest (KeyCall.ofMaps μ cs).2 names (keys + cs.length) ∧
            ∀ b ∈ rest, r.2.file.block b = k.view b := by
  obtain ⟨n,t,fs,os,hcat,hlen,hroot⟩ := h.trees
  have hz : ZSUPER ∈ t.ids ++ rest := List.mem_append_left _ hcat.link_mem
  refine (Btlib.ends_session hm hcap hslots h.betweenCalls h.lckcnt hz h.step hroot cs hkeys hfuel fun d hd =>
    hmet d _ hd).mono (fun _ _ he => he) ?_
  rintro ⟨⟨r,c'⟩,k'⟩ ⟨⟨⟨-,-,⟨B,hk,-⟩,-⟩,hr'⟩,rfl,hr,⟨ht,hnew⟩,hother⟩
  refine ⟨rfl,hk.labelled,(hcat.savedAt hr hr' ht hnew h.ver hother hlen).saved,fun b hb => ?_⟩
  refine hother b (List.mem_append_right _ hb) fun hbz => ?_
  exact (List.nodup_append.1 hroot.nodup_os).2.2 ZSUPER hcat.link_mem b hb hbz.symm

end Saved

section Open

variable [Build] {c : Ctx} {k : Cache} {rest : List Int} {μ : Map} {names keys : Nat}

theorem btopnFound_eq (mode : Int) (herr : c.err.qerror = 0) (hs : c.shared = false) :
    btopnFound mode c = .ret (0, { c with super := { c.super with smode := mode } }) := by
  change (if c.err.qerror ≠ 0 then btopnFail else (do leave; btgerr : BT Int))
    { c with super := { c.super with smode := mode } } = _
  rw [if_neg (not_not.2 herr)]
  change ((if c.shared = true then bulock else pure ()) >>= fun _ => btgerr : BT Int)
    { c with super := { c.super with smode := mode } } = _
  rw [hs, if_neg Bool.false_ne_true, pure_bind]
  change Prog.ret (c.err.qerror, _) = _
  rw [herr]

-- `btopn` on the file alone.
theorem exec_btopn {c1 c2 : Ctx} {d d' : Disk} {mode : Int} (hsup : (brdsup c.entering).run plain d = .done ((0, c1), d))
    (hroot : (btchgr (key "$$default") c1).run plain d = .done ((0, c2), d')) (herr : c2.err.qerror = 0)
    (hs : c2.shared = false) :
    exec (btopn mode false) ⟨c,d⟩ = .done (0, ⟨{ c2 with super := { c2.super with smode := mode } },d'⟩) := by
  have hrun : (btopn mode false c).run plain d = (btopnEntered mode c.entering).run plain d := rfl
  rw [exec, hrun, btopnEntered, BT.run_bind, hsup]
  simp only [Prog.Outcome.bind_done, ne_eq, not_true_eq_false, if_false]
  rw [btopnRead, BT.run_bind, hroot]
  simp only [Prog.Outcome.bind_done, ne_eq, not_true_eq_false, if_false]
  rw [btopnFound_eq mode herr hs]
  rfl

theorem Cache.shows_initcntrl {d : Disk} (h : k.initcntrl.Shows d) :
    d.size = k.file.size ∧ ∀ b, k.file.Has b → d.block b = k.file.block b := by
  refine ⟨h.size,fun b hb => (h.block b hb.1 hb.2).trans (view_of_absent fun i _ hi => ?_)⟩
  have hi : ZNULL = b := hi
  exact absurd (hi ▸ hb.1) (by decide)

theorem ends_btopn (hcap : 3 ≤ ZMXKEY) (hslots : 3 ≤ ZMXBLK) (h : Saved k.file rest μ names keys)
    (hmisc : (k.file.block ZSUPER).misc ≠ LFSHDR) (hlab : k.labelled < ZMXBLK) (hfuel : 2 * names + 3 ≤ FUEL) :
    ((btopn 0 false c).run Cache.alone k).Ends
      (fun o k' => k'.Parts o ∧ ∀ d, k'.Shows d → plain o d = none → Refused ZSUPER o d) fun r =>
        r.1.1 = 0 ∧ Opened r.1.2 r.2 rest μ names keys ∧ (∀ b ∈ rest, r.2.view b = k.file.block b) ∧
          ∀ d', r.2.Shows d' → ∃ d, k.initcntrl.Shows d ∧ exec (btopn 0 false) ⟨c,d⟩ = .done (0, ⟨r.1.2,d'⟩) := by
  obtain ⟨hver,n,m,t,u,fs,hlen,hkeys,hall⟩ := h
  obtain ⟨hcat,hplain⟩ := hall c.entering
  have hsize := hcat.index.store.size
  have hz := hcat.has
  rw [run_btopn]
  have hsup := ends_brdsup (c := c.entering) (k := { k with turn := k.turn + 1 }) Cache.mirrors_alone hslots
    hcat.index.store.size_nonneg hlab rfl rfl hz ?_ hver hmisc hsize
  · unfold btopnEntered
    rw [BT.run_bind]
    refine (hsup.mono (fun o k' he => ⟨he.1,fun d hd hn => absurd hn (he.2 d hd)⟩) fun r hr => hr).bind ?_
    rintro ⟨⟨_,_⟩,k1⟩ ⟨hr,⟨hbetween,hfree⟩,hback⟩
    obtain ⟨rfl,rfl⟩ := Prod.mk.inj hr
    simp only [ne_eq, not_true_eq_false, if_false]
    unfold btopnRead
    rw [BT.run_bind]
    have hlike : ∀ os d, k1.Shows d → AsIs ⟨c.entering.reads (k.file.block ZSUPER),k.file⟩
        ⟨c.entering.reads (k.file.block ZSUPER),d⟩ os := fun os d hd => by
      have hd := Cache.shows_initcntrl (hback d hd).1
      exact ⟨rfl,rfl,rfl,hd.1,fun b _ hb => hd.2 b hb⟩
    have hcatd : ∀ d, k1.Shows d → Catalog ⟨c.entering.reads (k.file.block ZSUPER),d⟩ t fs (u.ids ++ rest) u.link :=
      fun d hd => hcat.moved (hcat.index.asIs (hlike _ d hd)) (hcat.index.store.asIs (hlike _ d hd))
    have hu : u.link ∈ u.ids := by
      have hpos := hplain.pos
      obtain ⟨m,rfl⟩ : ∃ k, m = k + 1 := ⟨m - 1,by omega⟩
      exact Index.link_mem
    have hsame : ∀ d, k1.Shows d → ∀ b ∈ u.ids ++ rest, d.block b = k.file.block b := fun d hd b hb =>
      (hlike [] d hd).block b List.not_mem_nil (hcat.index.store.has_used (List.mem_append_right _ hb))
    have htyped : ∀ d, k1.Shows d → (d.block u.link).btype = ZROOT := fun d hd => by
      rw [hsame d hd _ (List.mem_append_left _ hu)]
      exact (hplain.index.kind _ hu).trans (if_pos rfl)
    have hdef := ends_default Cache.mirrors_alone hslots hcap hbetween hfree (Finset.empty_subset _) rfl Int.one_nonneg rfl hcatd htyped
      (List.mem_append_left _ hu) (by omega)
    refine hdef.bind ?_
    rintro ⟨⟨code,c2⟩,k2⟩ ⟨⟨hbetween2,htold⟩,hp⟩
    obtain ⟨d0,hd0,-,rfl,herr,hroot,fs',⟨n',t',hc',hl'⟩,hk⟩ := hp _ k2.shows_view
    simp only [ne_eq, not_true_eq_false, if_false]
    rw [btopnFound_eq 0 herr hbetween2.shared]
    have hinfo : (k.file.block ZSUPER).SameInfo (k2.view ZSUPER) := by
      have hsuper : d0.block ZSUPER = k.file.block ZSUPER := (hlike [] d0 hd0).block _ List.not_mem_nil hz
      rw [← hsuper]
      exact hk.info
    have hstep : InStep (c.entering.reads (k.file.block ZSUPER)).super (k2.view ZSUPER) :=
      ⟨le_rfl,fun _ => ⟨hinfo.nxblk,hinfo.nblks,hinfo.misc⟩⟩
    have hother : ∀ b ∈ u.ids ++ rest, k2.view b = k.file.block b := fun b hb => (hk.other b hb).trans (hsame d0 hd0 b hb)
    refine ⟨rfl,⟨⟨hbetween2.shared,hbetween2.size,hbetween2.keeps,hbetween2.backed⟩,hk.lckcnt,?_,?_,?_⟩,
      fun b hb => hother b (List.mem_append_right _ hb),?_⟩
    · exact ⟨(hstep.told htold).counts,(hstep.told htold).tells⟩
    · rw [Block.getInf, hinfo.btver, hinfo.bthdr]
      exact hver
    · refine ⟨n',t',fs',u.ids ++ rest,hroot ▸ hc'.same rfl rfl,hl' ▸ hlen,⟨hk.isopen,hbetween2.shared,rfl⟩,m,u,fs',?_,hkeys⟩
      refine hplain.moved hroot (fun b hb => hother b (List.mem_append_left _ hb)) ?_
      refine (hc'.index.store.perm ?_).transfer rfl (fun _ _ => rfl) rfl rfl
      rw [← List.append_assoc, ← List.append_assoc]
      exact List.perm_append_comm.append_right rest
    · intro d' hd'
      obtain ⟨d1,hd1,hrun,-⟩ := hp d' hd'
      exact ⟨d1,⟨(hback d1 hd1).1.size,(hback d1 hd1).1.block⟩,
        exec_btopn (hback d1 hd1).2 hrun herr hbetween2.shared⟩
  · exact (hcat.index.kind ZSUPER hcat.link_mem).trans (if_pos rfl)

-- A session of its own on a file: open, calls, close.
def KeyCall.reopened (cs : List KeyCall) : BT (Int × List (Int × Option Int) × Int) := do
  let code ← btopn 0 false
  let r ← KeyCall.session cs
  return (code, r)

-- Where the machines part in a session, no block was to be had, or no room on the path stack, or the null link was read.
def Stops (o : Op) (k : Cache) : Prop := k.Parts o ∧ ∀ d, k.Shows d → plain o d = none → ∃ root, Refused root o d

theorem ends_reopened (hcap : 8 ≤ ZMXKEY) (hslots : 3 ≤ ZMXBLK) (h : Saved k.file rest μ names keys)
    (hmisc : (k.file.block ZSUPER).misc ≠ LFSHDR) (hlab : k.labelled < ZMXBLK) (hnames : 2 * names + 3 ≤ FUEL)
    (cs : List KeyCall) (hkeys : ∀ call ∈ cs, call.key.length ≤ 31) (hfuel : 2 * (keys + cs.length) + 3 ≤ FUEL)
    (hmet : ∀ d s os, k.initcntrl.Shows d → exec (btopn 0 false) ⟨c,d⟩ = .done (0, s) → KeyCall.Met os cs s μ) :
    ((KeyCall.reopened cs c).run Cache.alone k).Ends Stops fun r =>
      r.1.1 = (0, (KeyCall.ofMaps μ cs).1, 0) ∧ r.2.labelled < ZMXBLK ∧
        Saved r.2.file rest (KeyCall.ofMaps μ cs).2 names (keys + cs.length) ∧
          ∀ b ∈ rest, r.2.file.block b = k.file.block b := by
  have hopen := ends_btopn (c := c) (by omega) hslots h hmisc hlab hnames
  rw [KeyCall.reopened, BT.run_bind]
  refine (hopen.mono (fun o k' he => ⟨he.1,fun d hd hn => ⟨_,he.2 d hd hn⟩⟩) fun r hr => hr).bind ?_
  rintro ⟨⟨code,c1⟩,k1⟩ ⟨rfl,hopened,hrest,hback⟩
  have hsession := hopened.ends_session Cache.mirrors_alone hcap hslots cs hkeys hfuel fun d os hd => by
    obtain ⟨d0,hd0,hrun⟩ := hback d hd
    exact hmet d0 _ os hd0 hrun
  rw [BT.run_bind, Prog.Outcome.ends_bind]
  refine hsession.mono (fun o k' he => ⟨he.1,fun d hd hn => ⟨_,he.2 d hd hn⟩⟩) ?_
  rintro ⟨⟨r,c2⟩,k2⟩ ⟨rfl,hlab2,hsaved,hother⟩
  exact ⟨rfl,hlab2,hsaved,fun b hb => (hother b hb).trans (hrest b hb)⟩

-- Sessions one after the other, each from any handle and any slots on the file as the last one left it; their calls
-- start from the map `μ`, and each of their deletions finds room.
inductive History : Map → Disk → List (List KeyCall) → List (Int × List (Int × Option Int) × Int) → Disk → Prop
  | nil (μ : Map) (f : Disk) : History μ f [] [] f
  | cons {c c' : Ctx} {k k' : Cache} {cs : List KeyCall} {css : List (List KeyCall)} {μ : Map}
      {r : Int × List (Int × Option Int) × Int} {rs : List (Int × List (Int × Option Int) × Int)} {f : Disk} :
      k.labelled < ZMXBLK → (k.file.block ZSUPER).misc ≠ LFSHDR →
      (∀ d s os, k.initcntrl.Shows d → exec (btopn 0 false) ⟨c,d⟩ = .done (0, s) → KeyCall.Met os cs s μ) →
      (KeyCall.reopened cs c).run Cache.alone k = .done ((r, c'), k') →
      History (KeyCall.ofMaps μ cs).2 k'.file css rs f → History μ k.file (cs :: css) (r :: rs) f

-- What the sessions come to as calls of one map.
def KeyCall.ofSessions (μ : Map) : List (List KeyCall) → List (Int × List (Int × Option Int) × Int) × Map
  | [] => ([], μ)
  | cs :: css =>
      let r := KeyCall.ofMaps μ cs
      let rs := ofSessions r.2 css
      ((0, r.1, 0) :: rs.1, rs.2)

-- Over any number of sessions the file keeps the map: each of them finds what all before have left, and leaves the
-- blocks of the other roots alone.
theorem sessions_like_map (hcap : 8 ≤ ZMXKEY) (hslots : 3 ≤ ZMXBLK) {f f' : Disk} {css : List (List KeyCall)}
    {rs : List (Int × List (Int × Option Int) × Int)} (hist : History μ f css rs f') (h : Saved f rest μ names keys)
    (hnames : 2 * names + 3 ≤ FUEL) (hkeys : ∀ cs ∈ css, ∀ call ∈ cs, call.key.length ≤ 31)
    (hfuel : 2 * (keys + css.flatten.length) + 3 ≤ FUEL) :
    rs = (KeyCall.ofSessions μ css).1 ∧ Saved f' rest (KeyCall.ofSessions μ css).2 names (keys + css.flatten.length) ∧
      ∀ b ∈ rest, f'.block b = f.block b := by
  induction hist generalizing keys with
  | nil μ f => exact ⟨rfl,h,fun _ _ => rfl⟩
  | cons hlab hmisc hmet hrun _ ih =>
      rw [List.flatten_cons, List.length_append] at hfuel
      have hsession := ends_reopened hcap hslots h hmisc hlab hnames _ (hkeys _ List.mem_cons_self) (by omega) hmet
      rw [hrun] at hsession
      obtain ⟨rfl,-,hsaved,hrest⟩ := hsession
      obtain ⟨rfl,hsaved',hrest'⟩ := ih hsaved (fun cs hcs => hkeys cs (List.mem_cons_of_mem _ hcs)) (by omega)
      refine ⟨rfl,?_,fun b hb => (hrest' b hb).trans (hrest b hb)⟩
      rwa [List.flatten_cons, List.length_append, ← Nat.add_assoc]

end Open

section Run

local instance sessionsBuild : Build := build32 100

attribute [local irreducible] exec KeyCall.reopened

-- A file that has just been made.
def Disk.made : Disk where
  size := 2
  block := fun b =>
    if b = ZSUPER then superKeys (Block.blank.setBk ZROOT 0 ZNULL 2 2 ZNULL)
    else Block.blank.setBk ZROOT 0 ZNULL 0 DEFAULT_ROOT ZNULL

theorem saved_made : Saved Disk.made [] (fun _ => none) 2 0 :=
  .blank (by decide) rfl fun _ => ⟨rfl,rfl,rfl,⟨rfl,⟨rfl,rfl,trivial⟩,rfl,rfl,rfl,trivial⟩,rfl,rfl,rfl,rfl⟩

theorem ends_reopened_made : ∃ r,
    (KeyCall.reopened risenAndFallen St.fresh.ctx).run Cache.alone (Cache.clear Disk.made) = .done r ∧
      r.1.1 = (0, List.replicate 35 (0, none) ++ [(QNOKEY, none),(0, some 12)], 0) ∧ r.2.labelled < ZMXBLK ∧
        Saved r.2.file [] (KeyCall.ofMaps (fun _ => none) risenAndFallen).2 2 37 ∧
          ∀ b ∈ [], r.2.file.block b = Disk.made.block b := by
  have h := ends_reopened (c := St.fresh.ctx) (k := Cache.clear Disk.made) (by decide) (by decide) saved_made (by decide)
    (by decide) (by decide) risenAndFallen (by decide) (by decide)
    fun _ _ _ _ _ => KeyCall.met_of_few _ few_none (by decide)
  have hdone : ((KeyCall.reopened risenAndFallen St.fresh.ctx).run Cache.alone
      (Cache.clear Disk.made)).result.isSome = true := by decide +kernel
  obtain ⟨r,hr⟩ := Option.isSome_iff_exists.1 hdone
  have hrun := Prog.Outcome.result_eq_some.1 hr
  rw [hrun] at h
  refine ⟨r,hrun,h.1.trans (congrArg (0, ·, 0) ?_),h.2⟩
  decide +kernel

-- A session that fills the file, and another that empties half of it.
def filled : List KeyCall := (List.range 23).map fun i => .keep (.insert [Fin.ofNat 256 (65 + i)] i)

def halved : List KeyCall := (List.range 12).map (fun i => .delete [Fin.ofNat 256 (65 + i)]) ++ [.keep (.find [77])]

theorem history_made : ∃ rs f', History (fun _ => none) Disk.made [filled, halved] rs f' := by
  have hrun : (((KeyCall.reopened filled St.fresh.ctx).run Cache.alone (Cache.clear Disk.made)).result.any
      fun r => decide ((r.2.file.block ZSUPER).misc ≠ LFSHDR) &&
        ((KeyCall.reopened halved St.fresh.ctx).run Cache.alone (Cache.clear r.2.file)).result.isSome) = true := by
    decide +kernel
  obtain ⟨⟨⟨r,c1⟩,k1⟩,hr,hrest⟩ := (Option.any_eq_true _ _).1 hrun
  obtain ⟨hmisc,hsome⟩ := Bool.and_eq_true_iff.1 hrest
  obtain ⟨⟨⟨r',c2⟩,k2⟩,hr'⟩ := Option.isSome_iff_exists.1 hsome
  have hfew := few_none.ofMaps filled
  refine ⟨[r,r'],k2.file,.cons (k := Cache.clear Disk.made) (by decide) (by decide)
    (fun _ _ _ _ _ => KeyCall.met_of_few _ few_none (by decide)) (Prog.Outcome.result_eq_some.1 hr) ?_⟩
  exact .cons (k := Cache.clear k1.file) (show 0 < ZMXBLK by decide) (of_decide_eq_true hmisc)
    (fun _ _ _ _ _ => KeyCall.met_of_few _ hfew (by decide)) (Prog.Outcome.result_eq_some.1 hr') (.nil _ _)

theorem sessions_like_map_made : ∃ f', Saved f' [] (KeyCall.ofSessions (fun _ => none) [filled, halved]).2 2 36 ∧
    History (fun _ => none) Disk.made [filled, halved]
      [(0, List.replicate 23 (0, none), 0), (0, List.replicate 12 (0, none) ++ [(0, some 12)], 0)] f' := by
  obtain ⟨rs,f',hist⟩ := history_made
  obtain ⟨hrs,hsaved,-⟩ := sessions_like_map (by decide) (by decide) hist saved_made (by decide) (by decide) (by decide)
  have hans : (KeyCall.ofSessions (fun _ => none) [filled, halved]).1 =
      [(0, List.replicate 23 (0, none), 0), (0, List.replicate 12 (0, none) ++ [(0, some 12)], 0)] := by
    decide +kernel
  exact ⟨f',hsaved,hans ▸ hrs ▸ hist⟩

end Run

end Btlib
