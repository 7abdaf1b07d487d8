import Btlib.Share.Latch
import Btlib.Share.Opens

namespace Btlib

open Prog

-- Processes with shared handles on one file, and the one that holds its lock. A process is at nothing, or at a call of
-- which `rest` is still to run.
inductive SharedFile.Work where
  | idle
  | busy (rest : Prog Op Res ((Int × Option Int) × Ctx))

structure SharedFile.Process where
  ctx : Ctx
  cache : Cache
  work : SharedFile.Work

structure SharedFile (ι : Type) where
  proc : ι → SharedFile.Process
  file : Disk
  holder : Option ι

namespace SharedFile

inductive Event (ι : Type) where
  | call (i : ι) (c : Call)
  | enter (i : ι)
  | refuse (i : ι)
  | part (i : ι)
  | answer (i : ι) (a : Int × Option Int)
deriving DecidableEq

-- What a client knows of its process.
inductive Client where
  | idle
  | asked (c : Call)
  | told (a : Int × Option Int)

variable {ι : Type} [DecidableEq ι]

def set (s : SharedFile ι) (i : ι) (p : Process) : SharedFile ι := { s with proc := Function.update s.proc i p }

section Set

variable {s : SharedFile ι} {i j : ι} {p : Process}

@[simp] theorem set_self : (s.set i p).proc i = p := Function.update_self ..

theorem set_of_ne (h : j ≠ i) : (s.set i p).proc j = s.proc j := Function.update_of_ne h ..

@[simp] theorem set_file : (s.set i p).file = s.file := rfl

@[simp] theorem set_holder : (s.set i p).holder = s.holder := rfl

end Set

section Steps

variable [Build]

-- One operation of one process. The lock is granted where nobody holds it, and may be refused at any time. A `part` is
-- an allocation, a split or a push that is reported as refused (the call goes on to its error and gives the lock back),
-- or another operation where the slots are not like their file.
inductive Step : SharedFile ι → List (Event ι) → SharedFile ι → Prop
  | call {s : SharedFile ι} {i : ι} (c : Call) (h : (s.proc i).work = .idle) :
      Step s [.call i c] (s.set i { s.proc i with work := .busy (c.answer (s.proc i).ctx) })
  | ask {s : SharedFile ι} {i : ι} {o : Op} {g : Res o → Prog Op Res ((Int × Option Int) × Ctx)} {r : Res o} {k : Cache}
      (h : (s.proc i).work = .busy (.op o g)) (ho : Inner o)
      (hr : Cache.alone o { (s.proc i).cache with file := s.file } = some (r, k)) :
      Step s [] { s.set i { s.proc i with cache := k, work := .busy (g r) } with file := k.file }
  | part {s : SharedFile ι} {i : ι} {o : Op} {g : Res o → Prog Op Res ((Int × Option Int) × Ctx)} {r : Res o} {k : Cache}
      (h : (s.proc i).work = .busy (.op o g)) (ho : Inner o)
      (hp : Cache.Parts { (s.proc i).cache with file := s.file } o)
      (hr : cached (fun _ => (true, s.file)) o { (s.proc i).cache with file := s.file } = some (r, k)) :
      Step s [.part i] { s.set i { s.proc i with cache := k, work := .busy (g r) } with file := k.file }
  | lock {s : SharedFile ι} {i : ι} {g : Bool → Prog Op Res ((Int × Option Int) × Ctx)}
      (h : (s.proc i).work = .busy (.op .lock g)) (hfree : s.holder = none) :
      Step s [.enter i] { s.set i { s.proc i with
        cache := { (s.proc i).cache with turn := (s.proc i).cache.turn + 1 }
        work := .busy (g true) } with holder := some i }
  | refuse {s : SharedFile ι} {i : ι} {g : Bool → Prog Op Res ((Int × Option Int) × Ctx)}
      (h : (s.proc i).work = .busy (.op .lock g)) :
      Step s [.refuse i] (s.set i { s.proc i with work := .busy (g false) })
  | unlock {s : SharedFile ι} {i : ι} {g : Bool → Prog Op Res ((Int × Option Int) × Ctx)}
      (h : (s.proc i).work = .busy (.op .unlock g)) :
      Step s [] { s.set i { s.proc i with work := .busy (g true) } with
        holder := if s.holder = some i then none else s.holder }
  | answer {s : SharedFile ι} {i : ι} {a : Int × Option Int} {c : Ctx} (h : (s.proc i).work = .busy (.ret (a, c))) :
      Step s [.answer i a] (s.set i { s.proc i with ctx := c, work := .idle })

-- The operations of the processes in any order, as long as the superroot can be told from one of the other word size
-- whenever the lock is free.
inductive Runs : SharedFile ι → List (Event ι) → SharedFile ι → Prop
  | nil (s : SharedFile ι) : Runs s [] s
  | step {s s' s'' : SharedFile ι} {es e : List (Event ι)} (h : Runs s es s')
      (hmisc : s'.holder = none → (s'.file.block ZSUPER).misc ≠ LFSHDR) (hs : Step s' e s'') : Runs s (es ++ e) s''

end Steps

-- The calls as steps of one map: each takes effect at once, between when it is made and when it answers, or it is told
-- that the file is busy and has none.
inductive Atomic (μ : Map) : List (Event ι) → Map → (ι → Client) → Prop
  | nil : Atomic μ [] μ fun _ => .idle
  | call {es : List (Event ι)} {μ' : Map} {st : ι → Client} {i : ι} (h : Atomic μ es μ' st) (c : Call) (hi : st i = .idle) :
      Atomic μ (es ++ [.call i c]) μ' (Function.update st i (.asked c))
  | enter {es : List (Event ι)} {μ' : Map} {st : ι → Client} {i : ι} {c : Call} (h : Atomic μ es μ' st)
      (hi : st i = .asked c) :
      Atomic μ (es ++ [.enter i]) (c.ofMap μ').2 (Function.update st i (.told (c.ofMap μ').1))
  | refuse {es : List (Event ι)} {μ' : Map} {st : ι → Client} {i : ι} {c : Call} (h : Atomic μ es μ' st)
      (hi : st i = .asked c) : Atomic μ (es ++ [.refuse i]) μ' (Function.update st i (.told (QBUSY, none)))
  | answer {es : List (Event ι)} {μ' : Map} {st : ι → Client} {i : ι} {a : Int × Option Int} (h : Atomic μ es μ' st)
      (hi : st i = .told a) : Atomic μ (es ++ [.answer i a]) μ' (Function.update st i .idle)

section Simulation

variable [Build] {D : Int} {rest : List Int} {μ : Map} {keys : Nat} {p : Process} {f f0 : Disk}

-- The file has the map, and the blocks that are not of the root are as they were.
structure Evolved (f0 f : Disk) (D : Int) (rest : List Int) (μ : Map) (keys : Nat) : Prop where
  filed : Filed f D rest μ keys
  other : ∀ b ∈ rest, b ≠ ZSUPER → f.block b = f0.block b

theorem Evolved.mono {keys' : Nat} (h : Evolved f0 f D rest μ keys) (hle : keys ≤ keys') : Evolved f0 f D rest μ keys' :=
  ⟨⟨h.filed.ver,h.filed.kind,h.filed.super,fun c ho hs hm hD => (h.filed.root c ho hs hm hD).mono hle⟩,h.other⟩

-- A process that does not hold the lock.
inductive Doing (D : Int) (p : Process) : Client → Prop
  | idle (hw : p.work = .idle) (hv : Vacant D p.ctx p.cache) : Doing D p .idle
  | asked {c : Call} (hw : p.work = .busy (c.answer p.ctx)) (hv : Vacant D p.ctx p.cache) (hkey : c.key.length ≤ 31) :
      Doing D p (.asked c)
  | told {a : Int × Option Int} {g : Prog Op Res ((Int × Option Int) × Ctx)} {t : Phase} (hw : p.work = .busy g)
      (ht : t = .outside ∨ t = .refused) (hg : g.Guard latch (fun r _ => r.1 = a ∧ Vacant D r.2 p.cache) t) :
      Doing D p (.told a)

-- The one that does: what is left of its call comes to the file with the map.
structure Holding (p : Process) (f0 f : Disk) (D : Int) (rest : List Int) (μ : Map) (keys : Nat) (a : Int × Option Int)
    (g : Prog Op Res ((Int × Option Int) × Ctx)) : Prop where
  work : p.work = .busy g
  inside : g.Guard latch (fun _ t => t ≠ .inside) .inside
  run : (g.run Cache.alone { p.cache with file := f }).Ends Stops fun r =>
    r.1.1 = a ∧ Vacant D r.1.2 r.2 ∧ Evolved f0 r.2.file D rest μ keys

structure Follows (s : SharedFile ι) (st : ι → Client) (f0 : Disk) (D : Int) (rest : List Int) (μ : Map) (keys : Nat) :
    Prop where
  doing : ∀ i, s.holder ≠ some i → Doing D (s.proc i) (st i)
  free : s.holder = none → Evolved f0 s.file D rest μ keys
  held : ∀ i, s.holder = some i → ∃ a g, st i = .told a ∧ Holding (s.proc i) f0 s.file D rest μ keys a g

variable {s s' : SharedFile ι} {st : ι → Client} {i : ι} {cl : Client} {e : List (Event ι)} {c : Call}

theorem doing_set (hd : ∀ j ≠ i, s.holder ≠ some j → Doing D (s.proc j) (st j)) (hi : s.holder ≠ some i → Doing D p cl)
    (j : ι) (hj : s.holder ≠ some j) : Doing D ((s.set i p).proc j) (Function.update st i cl j) := by
  by_cases hji : j = i
  · subst hji
    rw [set_self, Function.update_self]
    exact hi hj
  · rw [set_of_ne hji, Function.update_of_ne hji]
    exact hd j hji hj

namespace Follows

theorem outer (h : Follows s st f0 D rest μ keys) (hi : s.holder ≠ some i) (hp : Doing D p cl) :
    Follows (s.set i p) (Function.update st i cl) f0 D rest μ keys := by
  refine ⟨doing_set (fun j _ => h.doing j) fun _ => hp,h.free,fun j hj => ?_⟩
  have hji : j ≠ i := fun hji => hi (hji ▸ hj)
  rw [set_of_ne hji, Function.update_of_ne hji]
  exact h.held j hj

theorem inner (h : Follows s st f0 D rest μ keys) (hi : s.holder = some i) {a : Int × Option Int}
    {g : Prog Op Res ((Int × Option Int) × Ctx)} (ha : st i = .told a) (hp : Holding p f0 f D rest μ keys a g) :
    Follows { s.set i p with file := f } st f0 D rest μ keys := by
  refine ⟨fun j hj => ?_,fun hn => ?_,fun j hj => ?_⟩
  · have hd : Doing D ((s.set i p).proc j) (Function.update st i (st i) j) :=
      doing_set (fun j _ => h.doing j) (fun hn => absurd hi hn) j hj
    rwa [Function.update_eq_self] at hd
  · cases hi.symm.trans hn
  · obtain rfl : i = j := Option.some.inj (hi.symm.trans hj)
    exact ⟨a,g,ha,by simpa using hp⟩

theorem lock (h : Follows s st f0 D rest μ keys) (hfree : s.holder = none) {a : Int × Option Int}
    {g : Prog Op Res ((Int × Option Int) × Ctx)} {μ' : Map} {keys' : Nat}
    (hp : Holding p f0 s.file D rest μ' keys' a g) :
    Follows { s.set i p with holder := some i } (Function.update st i (.told a)) f0 D rest μ' keys' := by
  refine ⟨fun j hj => ?_,nofun,fun j hj => ?_⟩
  · have hji : j ≠ i := fun hji => hj (congrArg some hji.symm)
    have hd := h.doing j (by simp [hfree])
    rwa [← set_of_ne (p := p) hji, ← Function.update_of_ne hji (.told a) st] at hd
  · obtain rfl : i = j := Option.some.inj hj
    exact ⟨a,g,Function.update_self ..,by simpa using hp⟩

theorem unlock (h : Follows s st f0 D rest μ keys) (hi : s.holder = some i) (hp : Doing D p (st i))
    (hf : Evolved f0 s.file D rest μ keys) : Follows { s.set i p with holder := none } st f0 D rest μ keys := by
  refine ⟨fun j _ => ?_,fun _ => hf,nofun⟩
  by_cases hji : j = i
  · subst hji
    simpa using hp
  · have hd := h.doing j fun hj => hji (Option.some.inj (hi.symm.trans hj)).symm
    rwa [← set_of_ne (p := p) hji] at hd

end Follows

section Moves

variable {a : Int × Option Int} {o : Op} {t : Phase}

omit [Build] in
theorem latch_inner (ho : Inner o) (h : latch.ok o t) (ht : t ≠ .inside) :
    (∃ name code, o = .report name code ∧ ¬ (GivesUp name ∨ name = "BPUSH")) ∧ (t = .outside ∨ t = .refused) := by
  cases o with
  | lock => exact ho.elim
  | unlock => exact ho.elim
  | report name code => exact ⟨⟨name,code,rfl,(h.resolve_left ht).2⟩,(h.resolve_left ht).1⟩
  | _ => exact absurd h ht

omit [Build] in
theorem latch_next (ho : Inner o) (r : Res o) : latch.next o t r = t := by
  cases o with
  | lock => exact ho.elim
  | unlock => exact ho.elim
  | _ => rfl

theorem Doing.busy {g : Prog Op Res ((Int × Option Int) × Ctx)} (h : Doing D p cl) (hw : p.work = .busy g) :
    (∃ c : Call, cl = .asked c ∧ g = c.answer p.ctx ∧ Vacant D p.ctx p.cache ∧ c.key.length ≤ 31) ∨
      ∃ a t, cl = .told a ∧ (t = .outside ∨ t = .refused) ∧
        g.Guard latch (fun r _ => r.1 = a ∧ Vacant D r.2 p.cache) t := by
  cases h with
  | idle h' hv => cases h'.symm.trans hw
  | asked h' hv hkey => exact .inl ⟨_,rfl,Work.busy.inj (hw.symm.trans h'),hv,hkey⟩
  | told h' ht hg => exact .inr ⟨_,_,rfl,ht,Work.busy.inj (hw.symm.trans h') ▸ hg⟩

theorem Doing.late {g : Res o → Prog Op Res ((Int × Option Int) × Ctx)} (h : Doing D p cl)
    (hw : p.work = .busy (.op o g)) (ho : Inner o) :
    (∃ name code, o = .report name code ∧ ¬ (GivesUp name ∨ name = "BPUSH")) ∧
      ∃ a t, cl = .told a ∧ (t = .outside ∨ t = .refused) ∧
        (Prog.op o g).Guard latch (fun r _ => r.1 = a ∧ Vacant D r.2 p.cache) t := by
  obtain ⟨c,-,hop,hv,-⟩ | ⟨a,t,rfl,ht,hg⟩ := h.busy hw
  · have hlatch := hv.latched c
    rw [← hop] at hlatch
    rcases (latch_inner ho hlatch.1 nofun).2 with ht | ht <;> cases ht
  · exact ⟨(latch_inner ho hg.1 (by rcases ht with rfl | rfl <;> nofun)).1,a,t,rfl,ht,hg⟩

theorem Doing.asks {g : Res o → Prog Op Res ((Int × Option Int) × Ctx)} {r : Res o} {k : Cache} (h : Doing D p cl)
    (hw : p.work = .busy (.op o g)) (ho : Inner o) (hr : Cache.alone o { p.cache with file := f } = some (r, k)) :
    k.file = f ∧ Doing D { p with cache := k, work := .busy (g r) } cl := by
  obtain ⟨⟨name,code,rfl,hname⟩,a,t,rfl,ht,hg⟩ := h.late hw ho
  have hask : Cache.alone (.report name code) { p.cache with file := f } = some ((), { p.cache with file := f }) :=
    if_neg hname
  obtain ⟨-,rfl⟩ := Prod.mk.inj (Option.some.inj (hask.symm.trans hr))
  exact ⟨rfl,.told rfl ht ((hg.2 () trivial).mono fun _ _ hq => ⟨hq.1,hq.2.withFile f⟩)⟩

theorem Holding.asks {g : Res o → Prog Op Res ((Int × Option Int) × Ctx)} {r : Res o} {k : Cache}
    (h : Holding p f0 f D rest μ keys a (.op o g)) (ho : Inner o)
    (hr : Cache.alone o { p.cache with file := f } = some (r, k)) :
    Holding { p with cache := k, work := .busy (g r) } f0 k.file D rest μ keys a (g r) := by
  refine ⟨rfl,?_,?_⟩
  · have hin := h.inside.2 r trivial
    rwa [latch_next ho] at hin
  · have hrun := h.run
    rw [Prog.run, hr] at hrun
    exact hrun

theorem Doing.idles (h : Doing D p cl) (hw : p.work = .idle) : cl = .idle ∧ Vacant D p.ctx p.cache := by
  cases h with
  | idle h' hv => exact ⟨rfl,hv⟩
  | asked h' hv hkey => cases h'.symm.trans hw
  | told h' ht hg => cases h'.symm.trans hw

theorem Doing.locks {g : Bool → Prog Op Res ((Int × Option Int) × Ctx)} (h : Doing D p cl)
    (hw : p.work = .busy (.op .lock g)) : ∃ c, cl = .asked c ∧ c.answer p.ctx = .op .lock g ∧ Vacant D p.ctx p.cache ∧
      c.key.length ≤ 31 := by
  obtain ⟨c,rfl,hop,hv,hkey⟩ | ⟨a,t,-,ht,hg⟩ := h.busy hw
  · exact ⟨c,rfl,hop.symm,hv,hkey⟩
  · have hwait := hg.1
    rcases ht with rfl | rfl <;> cases hwait

theorem Doing.never_unlocks {g : Bool → Prog Op Res ((Int × Option Int) × Ctx)} (h : Doing D p cl) :
    p.work ≠ .busy (.op .unlock g) := by
  intro hw
  obtain ⟨c,-,hop,hv,-⟩ | ⟨a,t,-,ht,hg⟩ := h.busy hw
  · have hlatch := hv.latched c
    rw [← hop] at hlatch
    cases hlatch.1
  · have hin := hg.1
    rcases ht with rfl | rfl <;> cases hin

theorem Doing.refused {g : Bool → Prog Op Res ((Int × Option Int) × Ctx)} (hv : Vacant D p.ctx p.cache)
    (hop : c.answer p.ctx = .op .lock g) : Doing D { p with work := .busy (g false) } (.told (QBUSY, none)) := by
  have hlatch := hv.latched c
  rw [hop] at hlatch
  have hg := hlatch.2 false trivial
  refine .told rfl (.inr rfl) ((mute (.inr rfl) hg).mono fun r _ hr => ?_)
  exact (hr.resolve_left nofun).2

theorem Evolved.locked {g : Bool → Prog Op Res ((Int × Option Int) × Ctx)} (hcap : 8 ≤ ZMXKEY) (hslots : 3 ≤ ZMXBLK)
    (h : Evolved f0 f D rest μ keys) (hmisc : (f.block ZSUPER).misc ≠ LFSHDR) (hv : Vacant D p.ctx p.cache)
    (hkey : c.key.length ≤ 31) (hfuel : 2 * (keys + 1) + 3 ≤ FUEL) (hop : c.answer p.ctx = .op .lock g) :
    Holding { p with cache := { p.cache with turn := p.cache.turn + 1 }, work := .busy (g true) } f0 f D rest (c.ofMap μ).2
      (keys + 1) (c.ofMap μ).1 (g true) := by
  have hlatch := hv.latched c
  have hrun := ends_shared hcap hslots (hv.withFile f) h.filed hmisc c hkey hfuel
  rw [hop] at hlatch hrun
  refine ⟨rfl,(hlatch.2 true trivial).mono fun r t ht hin => ?_,hrun.mono (fun _ _ he => he) ?_⟩
  · rcases ht with rfl | ⟨rfl,-⟩ <;> cases hin
  · rintro r ⟨ha,hleft,hfiled,hother⟩
    exact ⟨ha,hleft,hfiled,fun b hb hz => (hother b hb hz).trans (h.other b hb hz)⟩

theorem Holding.unlocked {g : Bool → Prog Op Res ((Int × Option Int) × Ctx)}
    (h : Holding p f0 f D rest μ keys a (.op .unlock g)) :
    Doing D { p with work := .busy (g true) } (.told a) ∧ Evolved f0 f D rest μ keys := by
  obtain ⟨hg,r,-,-,hf⟩ := mute_run (h.inside.2 true trivial) h.run
  exact ⟨.told rfl (.inl rfl) (hg.mono fun _ _ hq => ⟨hq.1,hq.2.1.withFile p.cache.file⟩),hf⟩

theorem Doing.answers {c : Ctx} (h : Doing D p cl) (hw : p.work = .busy (.ret (a, c))) :
    cl = .told a ∧ Doing D { p with ctx := c, work := .idle } .idle := by
  obtain ⟨call,-,hop,hv,-⟩ | ⟨a',t,rfl,-,hg⟩ := h.busy hw
  · have hlatch := hv.latched call
    rw [← hop] at hlatch
    rcases hlatch with ht | ⟨ht,-⟩ <;> cases ht
  · obtain ⟨rfl,hv⟩ := hg
    exact ⟨rfl,.idle rfl hv⟩

omit [DecidableEq ι] in
theorem Follows.not_held (h : Follows s st f0 D rest μ keys)
    (hw : ∀ g, (s.proc i).work = .busy g → ¬ g.Guard latch (fun _ t => t ≠ .inside) .inside) : s.holder ≠ some i := by
  intro hi
  obtain ⟨a,g,-,hold⟩ := h.held i hi
  exact hw g hold.work hold.inside

end Moves

omit [DecidableEq ι] in
theorem Follows.mono {keys' : Nat} (h : Follows s st f0 D rest μ keys) (hle : keys ≤ keys') :
    Follows s st f0 D rest μ keys' := by
  refine ⟨h.doing,fun hn => (h.free hn).mono hle,fun i hi => ?_⟩
  obtain ⟨a,g,ha,hold⟩ := h.held i hi
  exact ⟨a,g,ha,hold.work,hold.inside,hold.run.mono (fun _ _ he => he) fun _ hr => ⟨hr.1,hr.2.1,hr.2.2.mono hle⟩⟩

theorem Follows.step (hcap : 8 ≤ ZMXKEY) (hslots : 3 ≤ ZMXBLK) (h : Follows s st f0 D rest μ keys) (hs : Step s e s')
    (hmisc : s.holder = none → (s.file.block ZSUPER).misc ≠ LFSHDR) (hkeys : ∀ i c, .call i c ∈ e → c.key.length ≤ 31)
    (hgo : ∀ i, .part i ∉ e) (hfuel : 2 * (keys + e.length) + 3 ≤ FUEL) :
    ∃ μ' st', (∀ μ0 es, Atomic μ0 es μ st → Atomic μ0 (es ++ e) μ' st') ∧ Follows s' st' f0 D rest μ' (keys + e.length) := by
  cases hs with
  | @call i c hw =>
      have hi : s.holder ≠ some i := h.not_held fun g hg => by cases hg.symm.trans hw
      obtain ⟨hidle,hv⟩ := (h.doing i hi).idles hw
      have hd : Doing D { s.proc i with work := .busy (c.answer (s.proc i).ctx) } (.asked c) :=
        .asked rfl hv (hkeys i c (List.mem_singleton_self _))
      exact ⟨μ,_,fun _ _ hμ => hμ.call c hidle,(h.outer hi hd).mono (Nat.le_succ keys)⟩
  | @ask i o g r k hw ho hr =>
      refine ⟨μ,st,fun _ es hμ => (List.append_nil es).symm ▸ hμ,?_⟩
      by_cases hi : s.holder = some i
      · obtain ⟨a,g',ha,hold⟩ := h.held i hi
        obtain rfl : g' = .op o g := Work.busy.inj (hold.work.symm.trans hw)
        exact h.inner hi ha (hold.asks ho hr)
      · obtain ⟨hfile,hd⟩ := (h.doing i hi).asks hw ho hr
        have hout := h.outer hi hd
        rw [Function.update_eq_self] at hout
        rw [hfile]
        exact hout
  | @part i o g r k hw ho hp hr => exact absurd (List.mem_singleton_self _) (hgo i)
  | @lock i g hw hfree =>
      obtain ⟨c,hasked,hop,hv,hkey⟩ := (h.doing i (by simp [hfree])).locks hw
      have hold := (h.free hfree).locked hcap hslots (hmisc hfree) hv hkey hfuel hop
      exact ⟨_,_,fun _ _ hμ => hμ.enter hasked,h.lock hfree hold⟩
  | @refuse i g hw =>
      have hi : s.holder ≠ some i := h.not_held fun g' hg hin => by
        rw [Work.busy.inj (hg.symm.trans hw)] at hin
        cases hin.1
      obtain ⟨c,hasked,hop,hv,-⟩ := (h.doing i hi).locks hw
      exact ⟨μ,_,fun _ _ hμ => hμ.refuse hasked,(h.outer hi (.refused hv hop)).mono (Nat.le_succ keys)⟩
  | @unlock i g hw =>
      refine ⟨μ,st,fun _ es hμ => (List.append_nil es).symm ▸ hμ,?_⟩
      by_cases hi : s.holder = some i
      · obtain ⟨a,g',ha,hold⟩ := h.held i hi
        obtain rfl : g' = .op .unlock g := Work.busy.inj (hold.work.symm.trans hw)
        rw [if_pos hi]
        exact h.unlock hi (ha ▸ hold.unlocked.1) hold.unlocked.2
      · exact absurd hw (h.doing i hi).never_unlocks
  | @answer i a c hw =>
      have hi : s.holder ≠ some i := h.not_held fun g hg hin => by
        rw [Work.busy.inj (hg.symm.trans hw)] at hin
        exact hin rfl
      obtain ⟨htold,hd⟩ := (h.doing i hi).answers hw
      exact ⟨μ,_,fun _ _ hμ => hμ.answer htold,(h.outer hi hd).mono (Nat.le_succ keys)⟩

section Every

variable {es : List (Event ι)}

theorem Runs.follows (runs : Runs s es s') (hcap : 8 ≤ ZMXKEY) (hslots : 3 ≤ ZMXBLK)
    (h : Follows s (fun _ => .idle) f0 D rest μ keys) (hkeys : ∀ i c, .call i c ∈ es → c.key.length ≤ 31)
    (hgo : ∀ i, .part i ∉ es) (hfuel : 2 * (keys + es.length) + 3 ≤ FUEL) :
    ∃ μ' st, Atomic μ es μ' st ∧ Follows s' st f0 D rest μ' (keys + es.length) := by
  induction runs with
  | nil => exact ⟨μ,_,.nil,h⟩
  | @step s1 s2 es e _ hmisc hs ih =>
      rw [List.length_append] at hfuel ⊢
      obtain ⟨μ1,st1,hμ,hend⟩ := ih (fun i c hc => hkeys i c (List.mem_append_left _ hc))
        (fun i hi => hgo i (List.mem_append_left _ hi)) (by omega)
      obtain ⟨μ2,st2,hnext,hend2⟩ := hend.step hcap hslots hs hmisc (fun i c hc => hkeys i c (List.mem_append_right _ hc))
        (fun i hi => hgo i (List.mem_append_right _ hi)) (by omega)
      exact ⟨μ2,st2,hnext _ _ hμ,Nat.add_assoc .. ▸ hend2⟩

omit [DecidableEq ι] in
theorem Follows.start (hfree : s.holder = none) (hidle : ∀ i, (s.proc i).work = .idle)
    (hv : ∀ i, Vacant D (s.proc i).ctx (s.proc i).cache) (hf : Filed s.file D rest μ keys) :
    Follows s (fun _ => .idle) s.file D rest μ keys :=
  ⟨fun i _ => .idle (hidle i) (hv i),fun _ => ⟨hf,fun _ _ _ => rfl⟩,fun i hi => by cases hfree.symm.trans hi⟩

-- Whatever the order in which the processes take their steps, their calls answer like one map, each in one step between
-- when it is made and when it answers, unless the file is busy; and the file has the map whenever the lock is free.
theorem shared_like_map (hcap : 8 ≤ ZMXKEY) (hslots : 3 ≤ ZMXBLK) (runs : Runs s es s') (hfree : s.holder = none)
    (hidle : ∀ i, (s.proc i).work = .idle) (hv : ∀ i, Vacant D (s.proc i).ctx (s.proc i).cache)
    (hf : Filed s.file D rest μ keys) (hkeys : ∀ i c, .call i c ∈ es → c.key.length ≤ 31)
    (hgo : ∀ i, .part i ∉ es) (hfuel : 2 * (keys + es.length) + 3 ≤ FUEL) :
    ∃ μ' st, Atomic μ es μ' st ∧ (s'.holder = none → Filed s'.file D rest μ' (keys + es.length) ∧
      ∀ b ∈ rest, b ≠ ZSUPER → s'.file.block b = s.file.block b) := by
  obtain ⟨μ',st,hμ,hend⟩ := runs.follows hcap hslots (.start hfree hidle hv hf) hkeys hgo hfuel
  exact ⟨μ',st,hμ,fun hn => ⟨(hend.free hn).filed,(hend.free hn).other⟩⟩

end Every

end Simulation

section Exclusive

variable [Build] {s s' : SharedFile ι} {i : ι} {e : List (Event ι)} {o : Op}

-- A process is at nothing with a handle that holds no lock, or at a call, inside just where it holds the lock.
def Placed (p : Process) (holds : Prop) : Prop :=
  (p.work = .idle ∧ Unlocked p.ctx ∧ ¬ holds) ∨ ∃ g t u, p.work = .busy g ∧
    g.Guard (latch.both (busy False)) (fun r t => t.1 ≠ .inside ∧ Unlocked r.2) (t, u) ∧ (t = .inside ↔ holds)

def Ordered (s : SharedFile ι) : Prop := ∀ i, Placed (s.proc i) (s.holder = some i)

theorem Placed.next {p p' : Process} {holds holds' : Prop} (h : Placed p holds) {g : Res o → Prog Op Res ((Int × Option Int) × Ctx)}
    (hw : p.work = .busy (.op o g)) {r : Res o} (hw' : p'.work = .busy (g r))
    (hstep : ∀ t, latch.ok o t → (t = .inside ↔ holds) → (latch.next o t r = .inside ↔ holds')) : Placed p' holds' := by
  rcases h with ⟨hidle,-,-⟩ | ⟨g',t,u,hbusy,hg,ht⟩
  · cases hidle.symm.trans hw
  · obtain rfl : g' = .op o g := Work.busy.inj (hbusy.symm.trans hw)
    exact .inr ⟨g r,_,_,hw',hg.2 r ⟨trivial,adm_busy_any o u r⟩,hstep t hg.1.1 ht⟩

theorem Placed.holds {p : Process} {holds : Prop} (h : Placed p holds) {g : Res o → Prog Op Res ((Int × Option Int) × Ctx)}
    (hw : p.work = .busy (.op o g)) (ho : Inner o) (hrep : ∀ name code, o ≠ .report name code) : holds := by
  rcases h with ⟨hidle,-,-⟩ | ⟨g',t,u,hbusy,hg,ht⟩
  · cases hidle.symm.trans hw
  · obtain rfl : g' = .op o g := Work.busy.inj (hbusy.symm.trans hw)
    have hok := hg.1.1
    cases o with
    | lock => exact ho.elim
    | unlock => exact ho.elim
    | report name code => exact absurd rfl (hrep name code)
    | _ => exact ht.1 hok

theorem Ordered.set {p : Process} (h : Ordered s) (hp : Placed p (s.holder = some i)) : Ordered (s.set i p) := by
  intro j
  by_cases hji : j = i
  · subst hji
    rwa [set_self]
  · rw [set_of_ne hji]
    exact h j

theorem Ordered.step (h : Ordered s) (hs : Step s e s') : Ordered s' := by
  cases hs with
  | @call i c hw =>
      refine h.set ?_
      rcases h i with ⟨-,hunlocked,hn⟩ | ⟨g,-,-,hbusy,-⟩
      · exact .inr ⟨_,_,_,rfl,hunlocked.answers c,iff_of_false nofun hn⟩
      · cases hbusy.symm.trans hw
  | @ask i o g r k hw ho hr =>
      exact h.set ((h i).next hw rfl fun t _ ht => by rw [latch_next ho]; exact ht)
  | @part i o g r k hw ho hp hr =>
      exact h.set ((h i).next hw rfl fun t _ ht => by rw [latch_next ho]; exact ht)
  | @lock i g hw hfree =>
      intro j
      by_cases hji : j = i
      · subst hji
        change Placed ((s.set j _).proc j) _
        rw [set_self]
        exact (h j).next hw (r := true) rfl fun t _ _ => iff_of_true rfl rfl
      · change Placed ((s.set i _).proc j) (some i = some j)
        rw [set_of_ne hji]
        have hj := h j
        rw [hfree] at hj
        have hne : (some i = some j) = ((none : Option ι) = some j) := by
          simp [Ne.symm hji]
        rwa [hne]
  | @refuse i g hw =>
      refine h.set ((h i).next hw (r := false) rfl fun t ht hh => iff_of_false nofun ?_)
      rw [← hh]
      obtain rfl : t = .waiting := ht
      nofun
  | @unlock i g hw =>
      intro j
      by_cases hi : s.holder = some i
      · rw [if_pos hi]
        by_cases hji : j = i
        · subst hji
          change Placed ((s.set j _).proc j) _
          rw [set_self]
          exact (h j).next hw (r := true) rfl fun t _ _ => iff_of_false nofun nofun
        · change Placed ((s.set i _).proc j) (none = some j)
          rw [set_of_ne hji]
          have hj := h j
          rw [hi] at hj
          have hne : (some i = some j) = ((none : Option ι) = some j) := by
            simp [Ne.symm hji]
          rwa [← hne]
      · exfalso
        rcases h i with ⟨hidle,-,-⟩ | ⟨g',t,u,hbusy,hg,ht⟩
        · cases hidle.symm.trans hw
        · obtain rfl : g' = .op .unlock g := Work.busy.inj (hbusy.symm.trans hw)
          exact hi (ht.1 hg.1.1)
  | @answer i a c hw =>
      refine h.set (.inl ⟨rfl,?_⟩)
      rcases h i with ⟨hidle,-,-⟩ | ⟨g,t,u,hbusy,hg,ht⟩
      · cases hidle.symm.trans hw
      · obtain rfl : g = .ret (a, c) := Work.busy.inj (hbusy.symm.trans hw)
        exact ⟨hg.2,fun hi => hg.1 (ht.2 hi)⟩

theorem Ordered.run (h : Ordered s) (hruns : Relation.ReflTransGen (fun s s' => ∃ e, Step s e s') s s') : Ordered s' := by
  induction hruns with
  | refl => exact h
  | tail _ hs ih =>
      obtain ⟨e,hs⟩ := hs
      exact ih.step hs

-- In every state that the processes come to, in any order of their operations and whatever is refused on the way, only the
-- one that holds the lock is at an operation on its slots or the file.
theorem shared_exclusive (hruns : Relation.ReflTransGen (fun s s' => ∃ e, Step s e s') s s') (hfree : s.holder = none)
    (hidle : ∀ i, (s.proc i).work = .idle) (hunlocked : ∀ i, Unlocked (s.proc i).ctx)
    {g : Res o → Prog Op Res ((Int × Option Int) × Ctx)} (hw : (s'.proc i).work = .busy (.op o g)) (ho : Inner o)
    (hrep : ∀ name code, o ≠ .report name code) : s'.holder = some i := by
  have hstart : Ordered s := fun i => .inl ⟨hidle i,hunlocked i,by simp [hfree]⟩
  exact (hstart.run hruns i).holds hw ho hrep

end Exclusive

section Turns

variable [Build] {s s' s'' : SharedFile ι} {i : ι} {es es' : List (Event ι)} {r : (Int × Option Int) × Ctx} {k : Cache}
variable {g : Prog Op Res ((Int × Option Int) × Ctx)}

theorem Runs.trans (h : Runs s es s') (h' : Runs s' es' s'') : Runs s (es ++ es') s'' := by
  induction h' with
  | nil => rwa [List.append_nil]
  | step _ hmisc hs ih => exact List.append_assoc .. ▸ ih.step hmisc hs

theorem Runs.cons {e : List (Event ι)} (hmisc : s.holder = none → (s.file.block ZSUPER).misc ≠ LFSHDR) (hs : Step s e s')
    (h : Runs s' es s'') : Runs s (e ++ es) s'' := ((Runs.nil s).step hmisc hs).trans h

-- One process has come to the end of its call, and the lock is free.
structure Ended (s s' : SharedFile ι) (i : ι) (r : (Int × Option Int) × Ctx) (k : Cache) : Prop where
  work : (s'.proc i).work = .busy (.ret r)
  cache : { (s'.proc i).cache with file := s'.file } = k
  holder : s'.holder = none
  other : ∀ j ≠ i, s'.proc j = s.proc j

omit [Build] [DecidableEq ι] in
theorem Ended.of (h : Ended s' s'' i r k) (hother : ∀ j ≠ i, s'.proc j = s.proc j) : Ended s s'' i r k :=
  ⟨h.work,h.cache,h.holder,fun j hj => (h.other j hj).trans (hother j hj)⟩

theorem turn {o : Op} {g : Res o → Prog Op Res ((Int × Option Int) × Ctx)} (hw : (s.proc i).work = .busy (.op o g))
    (ho : Inner o) (hr : (Prog.op o g).run Cache.alone { (s.proc i).cache with file := s.file } = .done (r, k)) :
    ∃ s1 r1, Step s [] s1 ∧ s1.holder = s.holder ∧ (s1.proc i).work = .busy (g r1) ∧
      (g r1).run Cache.alone { (s1.proc i).cache with file := s1.file } = .done (r, k) ∧
        ∀ j ≠ i, s1.proc j = s.proc j := by
  rw [Prog.run] at hr
  cases hask : Cache.alone o { (s.proc i).cache with file := s.file } with
  | none =>
      rw [hask] at hr
      cases hr
  | some a =>
      rw [hask] at hr
      refine ⟨_,a.1,.ask hw ho hask,rfl,?_,?_,fun j hj => set_of_ne hj⟩
      · simp
      · simpa using hr

theorem turns_outside (hw : (s.proc i).work = .busy g) (hn : s.holder = none)
    (hg : g.Guard latch (fun _ _ => True) .outside)
    (hr : g.run Cache.alone { (s.proc i).cache with file := s.file } = .done (r, k))
    (hmisc : (k.file.block ZSUPER).misc ≠ LFSHDR) : ∃ s', Runs s [] s' ∧ Ended s s' i r k := by
  induction g generalizing s with
  | ret a =>
      obtain ⟨rfl,hk⟩ := Prod.mk.inj (Prog.Outcome.done.inj hr)
      exact ⟨s,.nil s,hw,hk,hn,fun _ _ => rfl⟩
  | hang => cases hr
  | op o g ih =>
      obtain ⟨_,hk⟩ := (mute_run (E := fun _ _ => True) (P := fun q => q.2 = k) hg (by rw [hr]; rfl)).2
      have ho : Inner o := by
        cases o with
        | lock => cases hg.1
        | unlock => cases hg.1
        | _ => trivial
      obtain ⟨s1,r1,hs,hn1,hw1,hr1,hother⟩ := turn hw ho hr
      have hg1 := hg.2 r1 trivial
      rw [latch_next ho] at hg1
      obtain ⟨s',hruns,hend⟩ := ih r1 hw1 (hn1.trans hn) hg1 hr1
      refine ⟨s',.cons (fun _ => ?_) hs hruns,hend.of hother⟩
      rw [← hk] at hmisc
      exact hmisc

theorem turns_inside (hw : (s.proc i).work = .busy g) (hi : s.holder = some i)
    (hg : g.Guard latch (fun _ t => t ≠ .inside) .inside)
    (hr : g.run Cache.alone { (s.proc i).cache with file := s.file } = .done (r, k))
    (hmisc : (k.file.block ZSUPER).misc ≠ LFSHDR) : ∃ s', Runs s [] s' ∧ Ended s s' i r k := by
  induction g generalizing s with
  | ret a => exact absurd rfl hg
  | hang => cases hr
  | op o g ih =>
      have hheld : s.holder = none → (s.file.block ZSUPER).misc ≠ LFSHDR := fun hn => by cases hi.symm.trans hn
      by_cases ho : Inner o
      · obtain ⟨s1,r1,hs,hi1,hw1,hr1,hother⟩ := turn hw ho hr
        have hg1 := hg.2 r1 trivial
        rw [latch_next ho] at hg1
        obtain ⟨s',hruns,hend⟩ := ih r1 hw1 (hi1.trans hi) hg1 hr1
        exact ⟨s',.cons hheld hs hruns,hend.of hother⟩
      · cases o with
        | lock => cases hg.1
        | unlock =>
            have hs := Step.unlock hw
            rw [if_pos hi] at hs
            have hrun : (g true).run Cache.alone { (s.proc i).cache with file := s.file } = .done (r, k) := hr
            have hout : (g true).Guard latch (fun _ _ => True) .outside := (hg.2 true trivial).mono fun _ _ _ => trivial
            obtain ⟨s',hruns,hend⟩ := turns_outside (s := { s.set i { s.proc i with work := .busy (g true) } with
              holder := none }) (i := i) (congrArg Process.work set_self) rfl hout (by simpa using hrun) hmisc
            exact ⟨s',.cons hheld hs hruns,hend.of fun j hj => set_of_ne hj⟩
        | _ => exact absurd trivial ho

theorem ends_turns {D : Int} {rest : List Int} {μ : Map} {keys : Nat} (hcap : 8 ≤ ZMXKEY) (hslots : 3 ≤ ZMXBLK)
    (hn : s.holder = none) (hw : (s.proc i).work = .idle) (hv : Vacant D (s.proc i).ctx (s.proc i).cache)
    (hf : Filed s.file D rest μ keys) (hmisc : (s.file.block ZSUPER).misc ≠ LFSHDR) (c : Call) (hkey : c.key.length ≤ 31)
    (hfuel : 2 * (keys + 1) + 3 ≤ FUEL) :
    ((c.answer (s.proc i).ctx).run Cache.alone { (s.proc i).cache with file := s.file }).Ends Stops fun r =>
      (r.2.file.block ZSUPER).misc ≠ LFSHDR → ∃ s', Runs s [.call i c, .enter i, .answer i (c.ofMap μ).1] s' ∧
        s'.file = r.2.file ∧ Filed s'.file D rest (c.ofMap μ).2 (keys + 1) ∧ s'.holder = none ∧
          (s'.proc i).work = .idle ∧ Vacant D (s'.proc i).ctx (s'.proc i).cache ∧ ∀ j ≠ i, s'.proc j = s.proc j := by
  have hrun := ends_shared hcap hslots (hv.withFile s.file) hf hmisc c hkey hfuel
  refine hrun.self.mono (fun _ _ he => he) ?_
  rintro ⟨⟨a,c1⟩,k1⟩ ⟨hdone,rfl,hv1,hf1,-⟩ hmisc1
  -- it asks for the lock first
  obtain ⟨g,hop⟩ : ∃ g, c.answer (s.proc i).ctx = .op .lock g := by
    rw [c.answer_eq hv.isopen hv.mode, ← Ctx.withLock_own hv.shared hv.lckcnt, locked_bind]
    exact ⟨_,rfl⟩
  have hlatch := hv.latched c
  rw [hop] at hlatch hdone
  have hdone : (g true).run Cache.alone { (s.proc i).cache with file := s.file, turn := (s.proc i).cache.turn + 1 } =
    .done (((c.ofMap μ).1, c1), k1) := hdone
  have hin : (g true).Guard latch (fun _ t => t ≠ .inside) .inside := by
    refine (hlatch.2 true trivial).mono fun r t ht hin => ?_
    rcases ht with rfl | ⟨rfl,-⟩ <;> cases hin
  have hcall := Step.call c hw
  obtain ⟨s1,hs1⟩ : ∃ s1, s1 = s.set i { s.proc i with work := .busy (c.answer (s.proc i).ctx) } := ⟨_,rfl⟩
  have hp1 : s1.proc i = { s.proc i with work := .busy (c.answer (s.proc i).ctx) } := by rw [hs1, set_self]
  have hother1 : ∀ j ≠ i, s1.proc j = s.proc j := fun j hj => by rw [hs1, set_of_ne hj]
  have hfile1 : s1.file = s.file := by rw [hs1, set_file]
  have hn1 : s1.holder = none := by rw [hs1, set_holder, hn]
  rw [← hs1] at hcall
  have hlock := Step.lock (s := s1) (i := i) (g := g) (by rw [hp1, hop]) hn1
  obtain ⟨s2,hs2⟩ : ∃ s2, s2 = { s1.set i { s1.proc i with
    cache := { (s1.proc i).cache with turn := (s1.proc i).cache.turn + 1 }
    work := .busy (g true) } with holder := some i } := ⟨_,rfl⟩
  rw [← hs2] at hlock
  obtain ⟨s3,hturns,hend⟩ := turns_inside (s := s2) (i := i) (g := g true) (k := k1) (by simp [hs2]) (by rw [hs2]) hin
    (by simpa [hs2, hp1, hfile1] using hdone) hmisc1
  have hanswer := Step.answer hend.work
  have hfile3 : s3.file = k1.file := congrArg Cache.file hend.cache
  have hruns := ((Runs.cons (fun _ => hmisc) hcall (.cons (fun _ => hfile1.symm ▸ hmisc) hlock hturns)).step
    (fun _ => hfile3.symm ▸ hmisc1) hanswer)
  refine ⟨_,hruns,hfile3,?_,hend.holder,?_,?_,fun j hj => ?_⟩
  · rw [set_file, hfile3]
    exact hf1
  · rw [set_self]
  · rw [set_self]
    have hv3 := (hend.cache ▸ hv1).withFile (s3.proc i).cache.file
    exact hv3
  · rw [set_of_ne hj, hend.other j hj, hs2]
    exact (set_of_ne hj).trans (hother1 j hj)

-- In no state of a run are the processes stuck: who has the lock comes to the end of its call and gives it back, and
-- where nobody has it any process that is at nothing comes to the end of any call.
theorem shared_goes_on {D : Int} {rest : List Int} {μ : Map} {keys : Nat} (hcap : 8 ≤ ZMXKEY) (hslots : 3 ≤ ZMXBLK)
    (runs : Runs s es s') (hfree : s.holder = none) (hidle : ∀ i, (s.proc i).work = .idle)
    (hv : ∀ i, Vacant D (s.proc i).ctx (s.proc i).cache) (hf : Filed s.file D rest μ keys)
    (hkeys : ∀ i c, .call i c ∈ es → c.key.length ≤ 31) (hgo : ∀ i, .part i ∉ es)
    (hfuel : 2 * (keys + es.length + 1) + 3 ≤ FUEL) (i : ι) :
    ∃ μ' st, Atomic μ es μ' st ∧
      (s'.holder = some i → ∃ a g, st i = .told a ∧ (s'.proc i).work = .busy g ∧
        (g.run Cache.alone { (s'.proc i).cache with file := s'.file }).Ends Stops fun r =>
          (r.2.file.block ZSUPER).misc ≠ LFSHDR → ∃ s'', Runs s' [.answer i a] s'' ∧ s''.holder = none ∧
            (s''.proc i).work = .idle ∧ ∀ j ≠ i, s''.proc j = s'.proc j) ∧
      (s'.holder = none → (s'.proc i).work = .idle → (s'.file.block ZSUPER).misc ≠ LFSHDR →
        ∀ c : Call, c.key.length ≤ 31 →
          ((c.answer (s'.proc i).ctx).run Cache.alone { (s'.proc i).cache with file := s'.file }).Ends Stops fun r =>
            (r.2.file.block ZSUPER).misc ≠ LFSHDR →
              ∃ s'', Runs s' [.call i c, .enter i, .answer i (c.ofMap μ').1] s'' ∧ s''.holder = none ∧
                (s''.proc i).work = .idle ∧ ∀ j ≠ i, s''.proc j = s'.proc j) := by
  obtain ⟨μ',st,hμ,hend⟩ := runs.follows hcap hslots (.start hfree hidle hv hf) hkeys hgo (by omega)
  refine ⟨μ',st,hμ,fun hi => ?_,fun hn hw hmisc c hkey => ?_⟩
  · obtain ⟨a,g,ha,hold⟩ := hend.held i hi
    refine ⟨a,g,ha,hold.work,hold.run.self.mono (fun _ _ he => he) ?_⟩
    rintro ⟨⟨a',c'⟩,k'⟩ ⟨hdone,rfl,-,-⟩ hmisc
    obtain ⟨s3,hturns,hended⟩ := turns_inside hold.work hi hold.inside hdone hmisc
    have hfile : s3.file = k'.file := congrArg Cache.file hended.cache
    refine ⟨_,hturns.step (fun _ => hfile.symm ▸ hmisc) (.answer hended.work),hended.holder,?_,fun j hj => ?_⟩
    · rw [set_self]
    · rw [set_of_ne hj, hended.other j hj]
  · have hvac := ((hend.doing i (by simp [hn])).idles hw).2
    have hturns := ends_turns hcap hslots hn hw hvac (hend.free hn).filed hmisc c hkey hfuel
    refine hturns.mono (fun _ _ he => he) fun r hr hmisc' => ?_
    obtain ⟨s'',hruns,-,-,hn'',hw'',-,hother⟩ := hr hmisc'
    exact ⟨s'',hruns,hn'',hw'',hother⟩

end Turns

section Plays

variable [Build] {s s' : SharedFile ι} {i : ι} {e : List (Event ι)}

-- A process makes a call, goes on for some operations at most, or finds the file busy.
inductive Turn (ι : Type) where
  | call (i : ι) (c : Call)
  | go (i : ι) (n : Nat)
  | refuse (i : ι)

-- What a process that is at a call does next, if it can.
def move (s : SharedFile ι) (i : ι) : Option (List (Event ι) × SharedFile ι) :=
  match (s.proc i).work with
  | .idle => none
  | .busy .hang => none
  | .busy (.ret (a, c)) => some ([.answer i a], s.set i { s.proc i with ctx := c, work := .idle })
  | .busy (.op .lock g) =>
      if s.holder = none then some ([.enter i], { s.set i { s.proc i with
        cache := { (s.proc i).cache with turn := (s.proc i).cache.turn + 1 }
        work := .busy (g true) } with holder := some i })
      else none
  | .busy (.op .unlock g) => some ([], { s.set i { s.proc i with work := .busy (g true) } with
      holder := if s.holder = some i then none else s.holder })
  | .busy (.op o g) => (Cache.alone o { (s.proc i).cache with file := s.file }).map fun r =>
      ([], { s.set i { s.proc i with cache := r.2, work := .busy (g r.1) } with file := r.2.file })

theorem move_step (h : s.move i = some (e, s')) : Step s e s' := by
  unfold move at h
  split at h
  · cases h
  · cases h
  · case _ hw =>
      cases h
      exact .answer hw
  · case _ hw =>
      obtain ⟨hn,hs⟩ := Option.ite_none_right_eq_some.1 h
      cases hs
      exact .lock hw hn
  · case _ hw =>
      cases h
      exact .unlock hw
  · case _ o g hlock hunlock hw =>
      obtain ⟨⟨r,k⟩,hask,hs⟩ := Option.map_eq_some_iff.1 h
      cases hs
      refine .ask hw ?_ hask
      cases o with
      | lock => exact (hlock g rfl HEq.rfl).elim
      | unlock => exact (hunlock g rfl HEq.rfl).elim
      | _ => trivial

def goes (i : ι) : Nat → SharedFile ι → List (Event ι) × SharedFile ι
  | 0, s => ([], s)
  | n + 1, s =>
      if s.holder = none ∧ (s.file.block ZSUPER).misc = LFSHDR then ([], s)
      else match s.move i with
        | none => ([], s)
        | some (e, s') => (e ++ (goes i n s').1, (goes i n s').2)

theorem goes_runs (i : ι) (n : Nat) (s : SharedFile ι) : Runs s (goes i n s).1 (goes i n s).2 := by
  induction n generalizing s with
  | zero => exact .nil s
  | succ n ih =>
      unfold goes
      by_cases hmisc : s.holder = none ∧ (s.file.block ZSUPER).misc = LFSHDR
      · rw [if_pos hmisc]
        exact .nil s
      · rw [if_neg hmisc]
        split
        · exact .nil s
        · case _ e s' hs => exact .cons (fun hn hm => hmisc ⟨hn,hm⟩) (move_step hs) (ih s')

def play (s : SharedFile ι) : Turn ι → Option (List (Event ι) × SharedFile ι)
  | .call i c => match (s.proc i).work with
      | .idle => some ([.call i c], s.set i { s.proc i with work := .busy (c.answer (s.proc i).ctx) })
      | .busy _ => none
  | .go i n => some (goes i n s)
  | .refuse i => match (s.proc i).work with
      | .busy (.op .lock g) => some ([.refuse i], s.set i { s.proc i with work := .busy (g false) })
      | _ => none

theorem play_runs {t : Turn ι} (hmisc : s.holder = none → (s.file.block ZSUPER).misc ≠ LFSHDR)
    (h : s.play t = some (e, s')) : Runs s e s' := by
  cases t with
  | call i c =>
      simp only [play] at h
      split at h
      · case _ hw =>
          cases h
          exact (Runs.nil s).step hmisc (.call c hw)
      · cases h
  | go i n =>
      have hs : goes i n s = (e, s') := Option.some.inj h
      have hruns := goes_runs i n s
      rwa [hs] at hruns
  | refuse i =>
      simp only [play] at h
      split at h
      · case _ hw =>
          cases h
          exact (Runs.nil s).step hmisc (.refuse hw)
      · cases h

-- One order of the processes' steps, as long as it is a run.
def plays : SharedFile ι → List (Turn ι) → Option (List (Event ι) × SharedFile ι)
  | s, [] => some ([], s)
  | s, t :: ts =>
      if s.holder = none ∧ (s.file.block ZSUPER).misc = LFSHDR then none
      else (s.play t).bind fun r => (plays r.2 ts).map fun r' => (r.1 ++ r'.1, r'.2)

theorem plays_runs {ts : List (Turn ι)} (h : s.plays ts = some (e, s')) : Runs s e s' := by
  induction ts generalizing s e with
  | nil =>
      cases h
      exact .nil s'
  | cons t ts ih =>
      obtain ⟨hmisc,hplay⟩ := Option.ite_none_left_eq_some.1 h
      obtain ⟨⟨e1,s1⟩,h1,h2⟩ := Option.bind_eq_some_iff.1 hplay
      obtain ⟨⟨e2,s2⟩,h3,hs⟩ := Option.map_eq_some_iff.1 h2
      cases hs
      exact (play_runs (fun hn hm => hmisc ⟨hn,hm⟩) h1).trans (ih h3)

theorem plays_any {t : List (Turn ι)} {e : List (Event ι)} {q : SharedFile ι → Bool}
    (h : (s.plays t).any (fun r => decide (r.1 = e) && q r.2) = true) : ∃ s', Runs s e s' ∧ q s' = true := by
  obtain ⟨⟨e',s'⟩,hplay,hr⟩ := (Option.any_eq_true _ _).1 h
  obtain ⟨he,hq⟩ := Bool.and_eq_true_iff.1 hr
  exact ⟨s',of_decide_eq_true he ▸ plays_runs hplay,hq⟩

theorem Runs.steps {es : List (Event ι)} (h : Runs s es s') : Relation.ReflTransGen (fun s s' => ∃ e, Step s e s') s s' := by
  induction h with
  | nil => exact .refl
  | step _ _ hs ih => exact ih.tail ⟨_,hs⟩

end Plays

section Opens

variable [Build] {D : Int} {rest : List Int} {μ : Map} {names keys : Nat} {f f' : Disk} {ps : List Process}

-- Processes come to share a file one after the other, each from any handle and any slots.
inductive Opens : Disk → List Process → Disk → Prop
  | nil (f : Disk) : Opens f [] f
  | cons {c c' : Ctx} {k k' : Cache} {ps : List Process} {f : Disk} {code : Int} (h : Opens f ps k.file)
      (hlab : k.labelled < ZMXBLK) (hmisc : (k.file.block ZSUPER).misc ≠ LFSHDR)
      (hrun : (btopn 0 true c).run Cache.alone k = .done ((code, c'), k')) : Opens f (⟨c',k',.idle⟩ :: ps) k'.file

omit [DecidableEq ι] in
theorem Opens.vacant (h : Opens f ps f') (hcap : 3 ≤ ZMXKEY) (hslots : 3 ≤ ZMXBLK) (hf : SavedAt f D rest μ names keys)
    (hfuel : 2 * names + 3 ≤ FUEL) : SavedAt f' D rest μ names keys ∧ (∀ b ∈ rest, f'.block b = f.block b) ∧
      ∀ p ∈ ps, p.work = .idle ∧ Vacant D p.ctx p.cache := by
  induction h with
  | nil f => exact ⟨hf,fun _ _ => rfl,fun _ hp => by cases hp⟩
  | @cons c _ _ _ _ _ _ _ hlab hmisc hrun ih =>
      obtain ⟨hsaved,hrest,hvacant⟩ := ih hf
      have hopen := ends_btopn_shared (c := c) hcap hslots hsaved hmisc hlab hfuel
      rw [hrun] at hopen
      obtain ⟨-,hv,hsaved',hrest'⟩ := hopen
      refine ⟨hsaved',fun b hb => (hrest' b hb).trans (hrest b hb),fun p hp => ?_⟩
      rcases List.mem_cons.1 hp with rfl | hp
      · exact ⟨rfl,hv⟩
      · exact hvacant p hp

-- From a closed file on: any number of processes open it to share it, and whatever the order of their steps from then
-- on, their calls answer like one map that starts as that of the file.
theorem shared_from_open (hcap : 8 ≤ ZMXKEY) (hslots : 3 ≤ ZMXBLK) {s : SharedFile (Fin ps.length)}
    {es : List (Event (Fin ps.length))} (hopen : Opens f ps f') (h : Saved f rest μ names keys)
    (hnames : 2 * names + 3 ≤ FUEL) (runs : Runs ⟨ps.get,f',none⟩ es s) (hkeys : ∀ i c, .call i c ∈ es → c.key.length ≤ 31)
    (hgo : ∀ i, .part i ∉ es) (hfuel : 2 * (keys + es.length) + 3 ≤ FUEL) :
    ∃ μ' st, Atomic μ es μ' st ∧ (s.holder = none → ∃ D os, Filed s.file D (os ++ rest) μ' (keys + es.length) ∧
      ∀ b ∈ rest, s.file.block b = f.block b) := by
  obtain ⟨D,hat⟩ := h.at
  obtain ⟨hat',hrest,hvacant⟩ := hopen.vacant (by omega) hslots hat hnames
  obtain ⟨os,hfiled,hsuper⟩ := hat'.filed
  obtain ⟨μ',st,hμ,hend⟩ := runs.follows hcap hslots (.start rfl (fun i => (hvacant _ (List.get_mem ps i)).1)
    (fun i => (hvacant _ (List.get_mem ps i)).2) hfiled) hkeys hgo hfuel
  refine ⟨μ',st,hμ,fun hn => ⟨D,os,(hend.free hn).filed,fun b hb => ?_⟩⟩
  exact ((hend.free hn).other b (List.mem_append_right _ hb) (hsuper b hb)).trans (hrest b hb)

end Opens

section Run

local instance sharedFileBuild : Build := build32 100

attribute [local irreducible] exec

-- Two processes with shared handles on a new file.
def open2 : SharedFile Bool where
  proc _ := ⟨{ St.held.ctx with shared := true, lckcnt := 0, super.smod := 0 },Cache.clear St.held.synced.disk,.idle⟩
  file := St.held.synced.disk
  holder := none

theorem filed_held : Filed St.held.synced.disk 1 [ZSUPER] (fun _ => none) 0 :=
  root_held.filed List.mem_cons_self ⟨by decide,fun hm => absurd hm (by decide)⟩ (by decide) rfl

theorem vacant_open2 (i : Bool) : Vacant 1 (open2.proc i).ctx (open2.proc i).cache :=
  ⟨rfl,rfl,rfl,rfl,rfl,le_rfl,rfl,show 0 < ZMXBLK by decide⟩

-- While one of them inserts a key, the other finds the file busy, and later the key.
def events2 (a b : ι) : List (Event ι) := [.call a (.insert [65] 7), .enter a, .call b (.find [65]), .refuse b,
  .answer b (QBUSY, none), .answer a (0, none), .call b (.find [65]), .enter b, .answer b (0, some 7)]

def turns2 (a b : ι) : List (Turn ι) := [.call a (.insert [65] 7), .go a 4, .call b (.find [65]), .refuse b, .go a 3,
  .go b 40, .go a 400, .call b (.find [65]), .go b 400]

omit [DecidableEq ι] in
theorem short2 {a b i : ι} {c : Call} (hc : .call i c ∈ events2 a b) : c.key.length ≤ 31 := by
  simp only [events2, List.mem_cons, Event.call.injEq, reduceCtorEq, false_or, or_false, List.not_mem_nil] at hc
  rcases hc with ⟨-,rfl⟩ | ⟨-,rfl⟩ | ⟨-,rfl⟩ <;> decide

omit [DecidableEq ι] in
theorem goes2 {a b i : ι} : .part i ∉ events2 a b := by
  simp only [events2, List.mem_cons, reduceCtorEq, or_false, List.not_mem_nil, not_false_eq_true]

theorem runs_open2 : ∃ s', Runs open2 (events2 false true) s' ∧ s'.holder = none := by
  obtain ⟨s',hruns,hn⟩ := plays_any (s := open2) (t := turns2 false true) (e := events2 false true)
    (q := fun s => decide (s.holder = none)) (by decide +kernel)
  exact ⟨s',hruns,of_decide_eq_true hn⟩

theorem shared_like_map_open2 : ∃ (s' : SharedFile Bool) (μ' : Map) (st : Bool → Client), Runs open2 (events2 false true) s' ∧
    Filed s'.file 1 [ZSUPER] μ' 9 ∧ Atomic (fun _ => none) (events2 false true) μ' st := by
  obtain ⟨s',hruns,hn⟩ := runs_open2
  obtain ⟨μ',st,hμ,hend⟩ := shared_like_map (by decide) (by decide) hruns rfl (fun _ => rfl) vacant_open2 filed_held
    (fun _ _ hc => short2 hc) (fun _ => goes2) (by decide)
  exact ⟨s',μ',st,hruns,(hend hn).1,hμ⟩

-- What a process is at, where it reads a block.
def reading (s : SharedFile ι) (i : ι) : Bool :=
  match (s.proc i).work with
  | .busy (.op (.rd _) _) => true
  | _ => false

omit [DecidableEq ι] in
theorem reading_work {s : SharedFile ι} {i : ι} (h : s.reading i = true) : ∃ (o : Op)
    (g : Res o → Prog Op Res ((Int × Option Int) × Ctx)), (s.proc i).work = .busy (.op o g) ∧ Inner o ∧
      ∀ name code, o ≠ .report name code := by
  unfold reading at h
  split at h
  · case _ blk g hw => exact ⟨_,g,hw,trivial,nofun⟩
  · cases h

-- One of them has the lock, and the other waits for it.
def waits2 : List (Event Bool) := [.call false (.find [65]), .enter false, .call true (.find [66])]

theorem runs_waits2 : ∃ s', Runs open2 waits2 s' ∧ s'.reading false = true ∧ s'.holder = some false ∧
    ∃ g, (s'.proc false).work = .busy g ∧ ∃ r, g.run Cache.alone { (s'.proc false).cache with file := s'.file } = .done r ∧
      (r.2.file.block ZSUPER).misc ≠ LFSHDR := by
  obtain ⟨s',hruns,hq⟩ := plays_any (s := open2)
    (t := [.call false (.find [65]), .go false 4, .call true (.find [66])]) (e := waits2)
    (q := fun s => s.reading false && (decide (s.holder = some false) && match (s.proc false).work with
      | .idle => false
      | .busy g => (g.run Cache.alone { (s.proc false).cache with file := s.file }).result.any fun r =>
          decide ((r.2.file.block ZSUPER).misc ≠ LFSHDR))) (by decide +kernel)
  obtain ⟨hread,hq⟩ := Bool.and_eq_true_iff.1 hq
  obtain ⟨hi,hq⟩ := Bool.and_eq_true_iff.1 hq
  refine ⟨s',hruns,hread,of_decide_eq_true hi,?_⟩
  split at hq
  · cases hq
  · case _ g hw =>
      obtain ⟨r,hr,hmisc⟩ := (Option.any_eq_true _ _).1 hq
      exact ⟨g,hw,r,Prog.Outcome.result_eq_some.1 hr,of_decide_eq_true hmisc⟩

theorem shared_exclusive_open2 : ∃ (s' : SharedFile Bool) (o : Op) (g : Res o → Prog Op Res ((Int × Option Int) × Ctx)),
    Runs open2 waits2 s' ∧ (s'.proc false).work = .busy (.op o g) ∧ Inner o ∧ s'.holder = some false := by
  obtain ⟨s',hruns,hread,-⟩ := runs_waits2
  obtain ⟨o,g,hw,ho,hrep⟩ := reading_work hread
  exact ⟨s',o,g,hruns,hw,ho,shared_exclusive hruns.steps rfl (fun _ => rfl) (fun i => (vacant_open2 i).unlocked) hw ho hrep⟩

theorem shared_goes_on_open2 :
    (∃ (s' s'' : SharedFile Bool) (a : Int × Option Int), Runs open2 waits2 s' ∧ s'.holder = some false ∧
      Runs s' [.answer false a] s'' ∧ s''.holder = none) ∧
    ∃ (s' s'' : SharedFile Bool) (a : Int × Option Int), Runs open2 (events2 false true) s' ∧
      Runs s' [.call true (.find [65]), .enter true, .answer true a] s'' ∧ s''.holder = none := by
  refine ⟨?_,?_⟩
  · obtain ⟨s',hruns,-,hi,g,hw,r,hr,hmisc⟩ := runs_waits2
    obtain ⟨_,_,_,hheld,-⟩ := shared_goes_on (by decide) (by decide) hruns rfl (fun _ => rfl) vacant_open2 filed_held
      (fun i c hc => by
        simp only [waits2, List.mem_cons, Event.call.injEq, reduceCtorEq, false_or, List.not_mem_nil, or_false] at hc
        rcases hc with ⟨-,rfl⟩ | ⟨-,rfl⟩ <;> decide)
      (fun i hc => by simp only [waits2, List.mem_cons, reduceCtorEq, List.not_mem_nil, or_false] at hc)
      (by decide) false
    obtain ⟨a,g',-,hw',hends⟩ := hheld hi
    obtain rfl : g = g' := Work.busy.inj (hw.symm.trans hw')
    rw [hr] at hends
    obtain ⟨s'',hruns'',hn,-⟩ := hends hmisc
    exact ⟨s',s'',a,hruns,hi,hruns'',hn⟩
  · obtain ⟨s',hruns,hq⟩ := plays_any (s := open2) (t := turns2 false true) (e := events2 false true)
      (q := fun s => decide (s.holder = none) && (decide ((s.file.block ZSUPER).misc ≠ LFSHDR) &&
        match (s.proc true).work with
        | .busy _ => false
        | .idle => (((Call.find [65]).answer (s.proc true).ctx).run Cache.alone
            { (s.proc true).cache with file := s.file }).result.any fun r =>
              decide ((r.2.file.block ZSUPER).misc ≠ LFSHDR))) (by decide +kernel)
    obtain ⟨hn,hq⟩ := Bool.and_eq_true_iff.1 hq
    obtain ⟨hmisc,hq⟩ := Bool.and_eq_true_iff.1 hq
    split at hq
    · cases hq
    · case _ hw =>
        obtain ⟨r,hr,hmisc'⟩ := (Option.any_eq_true _ _).1 hq
        obtain ⟨μ',_,_,-,hfree⟩ := shared_goes_on (by decide) (by decide) hruns rfl (fun _ => rfl) vacant_open2 filed_held
          (fun _ _ hc => short2 hc) (fun _ => goes2) (by decide) true
        have hends := hfree (of_decide_eq_true hn) hw (of_decide_eq_true hmisc) (.find [65]) (by decide)
        rw [Prog.Outcome.result_eq_some.1 hr] at hends
        obtain ⟨s'',hruns'',hn'',-⟩ := hends (of_decide_eq_true hmisc')
        exact ⟨s',s'',_,hruns,hruns'',hn''⟩

-- Two processes open a file that has just been made, and make their calls.
theorem shared_from_open_made : ∃ p1 p2 f' s μ' st, Opens Disk.made [p1, p2] f' ∧
    Runs ⟨[p1, p2].get,f',none⟩ (events2 0 1) s ∧ Atomic (fun _ => none) (events2 (0 : Fin 2) 1) μ' st ∧
      ∃ D os, Filed s.file D (os ++ []) μ' 9 := by
  have hrun : (((btopn 0 true St.fresh.ctx).run Cache.alone (Cache.clear Disk.made)).result.any fun r =>
      decide ((r.2.file.block ZSUPER).misc ≠ LFSHDR) &&
        ((btopn 0 true St.fresh.ctx).run Cache.alone (Cache.clear r.2.file)).result.any fun r' =>
          (plays ⟨[(⟨r'.1.2,r'.2,.idle⟩ : Process), ⟨r.1.2,r.2,.idle⟩].get,r'.2.file,none⟩ (turns2 (0 : Fin 2) 1)).any fun q =>
            decide (q.1 = events2 0 1) && decide (q.2.holder = none)) = true := by
    decide +kernel
  obtain ⟨⟨⟨code,c1⟩,k1⟩,hr,hrest⟩ := (Option.any_eq_true _ _).1 hrun
  obtain ⟨hmisc,hrest⟩ := Bool.and_eq_true_iff.1 hrest
  obtain ⟨⟨⟨code',c2⟩,k2⟩,hr',hplay⟩ := (Option.any_eq_true _ _).1 hrest
  obtain ⟨s,hruns,hn⟩ := plays_any (q := fun s => decide (s.holder = none)) hplay
  have hfirst : Opens Disk.made [⟨c1,k1,.idle⟩] k1.file :=
    .cons (k := Cache.clear Disk.made) (.nil _) (show 0 < ZMXBLK by decide) (by decide) (Prog.Outcome.result_eq_some.1 hr)
  have hsecond : Opens Disk.made [⟨c2,k2,.idle⟩, ⟨c1,k1,.idle⟩] k2.file :=
    .cons (k := Cache.clear k1.file) hfirst (show 0 < ZMXBLK by decide) (of_decide_eq_true hmisc)
      (Prog.Outcome.result_eq_some.1 hr')
  obtain ⟨μ',st,hμ,hend⟩ := shared_from_open (by decide) (by decide) hsecond saved_made (by decide) hruns
    (fun _ _ hc => short2 hc) (fun _ => goes2) (show 2 * (0 + 9) + 3 ≤ FUEL by decide)
  obtain ⟨D,os,hfiled,-⟩ := hend (of_decide_eq_true hn)
  exact ⟨_,_,_,s,μ',st,hsecond,hruns,hμ,D,os,hfiled⟩

end Run

end SharedFile

end Btlib
