import Btlib.Mend.Delete

namespace Btlib

open Multiway

-- The calls on the keys of a root without duplicates, the deletion with them.
inductive KeyCall where
  | keep (c : Call)
  | delete (key : Key)
deriving DecidableEq, Repr

namespace KeyCall

def key : KeyCall → Key
  | keep c => c.key
  | delete k => k

def answer [Build] : KeyCall → BT (Int × Option Int)
  | keep c => c.answer
  | delete k => do return (← bdelky (some k), none)

-- The same calls of a finite map.
def ofMap (μ : Map) : KeyCall → (Int × Option Int) × Map
  | keep c => c.ofMap μ
  | delete k => if μ k = none then ((QNOKEY, none), μ) else ((0, none), Function.update μ k none)

def answers [Build] : List KeyCall → BT (List (Int × Option Int))
  | [] => return []
  | c :: cs => do
      let a ← c.answer
      let as ← answers cs
      return a :: as

def ofMaps (μ : Map) : List KeyCall → List (Int × Option Int) × Map
  | [] => ([], μ)
  | c :: cs =>
      let r := c.ofMap μ
      let rs := ofMaps r.2 cs
      (r.1 :: rs.1, rs.2)

-- The tree that the deletion of a key begins with has room for it.
def Meets [Build] (s : St) (os : List Int) (μ : Map) : KeyCall → Prop
  | keep _ => True
  | delete k => μ k ≠ none → ∀ (n : Nat) (t : KeyTree n) (fs : List Int), Plain s t fs os μ → RoomFor k t

-- Every deletion of the run does.
def Met [Build] (os : List Int) : List KeyCall → St → Map → Prop
  | [], _, _ => True
  | c :: cs, s, μ => c.Meets s os μ ∧ ∀ a s', exec c.answer s = .done (a, s') → Met os cs s' (c.ofMap μ).2

end KeyCall

section Runs

variable [Build] {s s' : St} {os : List Int} {μ : Map} {keys : Nat}

theorem ends_keyCall (hcap : 8 ≤ ZMXKEY) (h : Root s os μ keys) (c : KeyCall) (hkey : c.key.length ≤ 31)
    (hfuel : 2 * keys + 3 ≤ FUEL) (hmeets : c.Meets s os μ) :
    (exec c.answer s).Ends (Refused s.ctx.super.scroot) fun r =>
      r.1 = (c.ofMap μ).1 ∧ Leaves s os (keys + 1) (c.ofMap μ).2 r.2 := by
  cases c with
  | keep c => exact ends_answer (by omega) h c hkey hfuel
  | delete k =>
      obtain ⟨hw,n,t,fs,hp,hlen⟩ := h
      have hfuel' : 2 * t.inorder.length + 3 ≤ FUEL := by omega
      simp only [KeyCall.answer, exec_bind, exec_pure, KeyCall.ofMap]
      refine Prog.Outcome.Ends.bind (ends_delete hcap hw hp hkey hfuel' fun hin => hmeets hin n t fs hp) ?_
      rintro ⟨code,s'⟩ ⟨m,t',fs',⟨⟨w,hsome⟩,rfl,hd⟩ | ⟨hnone,rfl,hd⟩⟩
      · rw [if_neg (by simp [hsome])]
        exact ⟨rfl,(hd.leaves hw).mono (by omega)⟩
      · rw [if_pos hnone]
        exact ⟨rfl,(hd.leaves hw).mono (by omega)⟩

-- Induction on the calls: what one of them leaves is a root the rest can start from.
theorem ends_keyCalls (hcap : 8 ≤ ZMXKEY) (h : Root s os μ keys) (cs : List KeyCall)
    (hkeys : ∀ c ∈ cs, c.key.length ≤ 31) (hfuel : 2 * (keys + cs.length) + 3 ≤ FUEL) (hmet : KeyCall.Met os cs s μ) :
    (exec (KeyCall.answers cs) s).Ends (Refused s.ctx.super.scroot) fun r =>
      r.1 = (KeyCall.ofMaps μ cs).1 ∧ Leaves s os (keys + cs.length) (KeyCall.ofMaps μ cs).2 r.2 := by
  induction cs generalizing s μ keys with
  | nil => exact ⟨rfl,.refl s os,h⟩
  | cons c cs ih =>
      simp only [List.length_cons] at hfuel
      obtain ⟨hmeets,hrest⟩ := hmet
      simp only [KeyCall.answers, exec_bind, exec_pure, KeyCall.ofMaps, List.length_cons]
      refine Prog.Outcome.Ends.bind
        (ends_keyCall hcap h c (hkeys c List.mem_cons_self) (by omega) hmeets).self ?_
      rintro ⟨a,s'⟩ ⟨hrun,rfl,hl⟩
      have hcs := ih hl.root (fun c hc => hkeys c (List.mem_cons_of_mem _ hc)) (by omega) (hrest _ s' hrun)
      rw [hl.keeps.root] at hcs
      refine Prog.Outcome.Ends.bind hcs ?_
      rintro ⟨as,s''⟩ ⟨rfl,hl'⟩
      exact ⟨rfl,hl.keeps.trans hl'.keeps,hl'.root.mono (by omega)⟩

-- With deletions in it too, every sequence of calls on a root answers like a finite map, as long as the tree before each
-- of them has room for it.
theorem deletions_like_map (hcap : 8 ≤ ZMXKEY) (h : Root s os μ keys) (cs : List KeyCall)
    (hkeys : ∀ c ∈ cs, c.key.length ≤ 31) (hfuel : 2 * (keys + cs.length) + 3 ≤ FUEL) (hmet : KeyCall.Met os cs s μ) :
    (exec (KeyCall.answers cs) s).Ends (Refused s.ctx.super.scroot) fun r =>
      r.1 = (KeyCall.ofMaps μ cs).1 ∧ Root r.2 os (KeyCall.ofMaps μ cs).2 (keys + cs.length) ∧
        ∀ b ∈ os, r.2.disk.block b = s.disk.block b :=
  (ends_keyCalls hcap h cs hkeys hfuel hmet).mono (fun _ _ h => h) fun _ hr => ⟨hr.1,hr.2.root,hr.2.keeps.other⟩

end Runs

section Few

variable [Build] {s : St} {fs os : List Int} {μ : Map} {n keys : Nat}

-- A map of at most so many keys.
def Few (μ : Map) (keys : Nat) : Prop := ∃ l : List Key, l.length ≤ keys ∧ ∀ k, μ k ≠ none → k ∈ l

omit [Build] in
theorem few_none : Few (fun _ => none) 0 := ⟨[],le_rfl,fun _ h => absurd rfl h⟩

omit [Build] in
theorem Few.update (h : Few μ keys) (k : Key) (v : Option Int) : Few (Function.update μ k v) (keys + 1) := by
  obtain ⟨l,hlen,hl⟩ := h
  refine ⟨k :: l,Nat.succ_le_succ hlen,fun k' hk' => ?_⟩
  rcases eq_or_ne k' k with rfl | hne
  · exact List.mem_cons_self
  · rw [Function.update_of_ne hne] at hk'
    exact List.mem_cons_of_mem _ (hl k' hk')

omit [Build] in
theorem Few.mono {keys' : Nat} (h : Few μ keys) (hle : keys ≤ keys') : Few μ keys' :=
  ⟨h.choose,h.choose_spec.1.trans hle,h.choose_spec.2⟩

omit [Build] in
theorem Few.ofMap (h : Few μ keys) (c : KeyCall) : Few (c.ofMap μ).2 (keys + 1) := by
  have hsame : Few μ (keys + 1) := h.mono (Nat.le_succ keys)
  cases c with
  | keep c =>
      cases c with
      | find k => exact hsame
      | insert k v =>
          simp only [KeyCall.ofMap, Call.ofMap]
          split
          · exact h.update k (some v)
          · exact hsame
      | update k v =>
          simp only [KeyCall.ofMap, Call.ofMap]
          split
          · exact hsame
          · exact h.update k (some v)
  | delete k =>
      simp only [KeyCall.ofMap]
      split
      · exact hsame
      · exact h.update k none

omit [Build] in
theorem Few.ofMaps (h : Few μ keys) (cs : List KeyCall) : Few (KeyCall.ofMaps μ cs).2 (keys + cs.length) := by
  induction cs generalizing μ keys with
  | nil => exact h
  | cons c cs ih =>
      have := ih (h.ofMap c)
      rwa [Nat.add_assoc, Nat.add_comm 1] at this

theorem WellFormed.length_le {t : KeyTree n} (h : WellFormed s t fs os) {l : List Key}
    (hl : ∀ e ∈ t.inorder, e.key ∈ l) : t.inorder.length ≤ l.length := by
  have hnodup : (t.inorder.map KeyEnt.key).Nodup := by
    have hpair : (t.inorder.map KeyEnt.key).Pairwise (· < ·) := List.pairwise_map.2 h.sorted
    exact hpair.imp fun hlt => ne_of_lt hlt
  have hsub : t.inorder.map KeyEnt.key ⊆ l := by
    intro k hk
    obtain ⟨e,he,rfl⟩ := List.mem_map.1 hk
    exact hl e he
  have := (hnodup.subperm hsub).length_le
  rwa [List.length_map] at this

theorem Plain.length_le {t : KeyTree n} (h : Plain s t fs os μ) (hfew : Few μ keys) : t.inorder.length ≤ keys := by
  obtain ⟨l,hlen,hl⟩ := hfew
  refine (h.wellFormed.length_le fun e he => hl e.key ?_).trans hlen
  have hin : (⟨e.key,e.val,ZNULL⟩ : KeyEnt) ∈ t.inorder := h.single e he ▸ he
  simp [(h.entries e.key e.val).2 hin]

theorem Plain.roomFor {t : KeyTree n} (h : Plain s t fs os μ) (hfew : Few μ (2 * ZMXKEY)) (k : Key) : RoomFor k t :=
  BTree.roomy_of_length h.wf (h.length_le hfew)

theorem KeyCall.met_of_few (cs : List KeyCall) (hfew : Few μ keys)
    (hlen : keys + cs.length ≤ 2 * ZMXKEY) : KeyCall.Met os cs s μ := by
  induction cs generalizing s μ keys with
  | nil => trivial
  | cons c cs ih =>
      rw [List.length_cons] at hlen
      refine ⟨?_,fun _ _ _ => ih (hfew.ofMap c) (by omega)⟩
      cases c with
      | keep c => trivial
      | delete k => exact fun _ n t fs hp => hp.roomFor (hfew.mono (by omega)) k

end Few

section Run

local instance fewBuild : Build := build32 100

attribute [local irreducible] exec

-- Enough keys to split the root, and then as many deletions as empty its left leaf and take the key over it.
def risenAndFallen : List KeyCall :=
  (List.range 23).map (fun i => .keep (.insert [Fin.ofNat 256 (65 + i)] i)) ++
    (List.range 12).map (fun i => .delete [Fin.ofNat 256 (65 + i)]) ++ [.delete [65],.keep (.find [77])]

theorem deletions_like_map_fresh : ∃ r, exec (KeyCall.answers risenAndFallen) St.fresh = .done r ∧
    r.1 = List.replicate 35 (0, none) ++ [(QNOKEY, none),(0, some 12)] ∧
      Root r.2 [0] (KeyCall.ofMaps (fun _ => none) risenAndFallen).2 37 ∧
        ∀ b ∈ [0], r.2.disk.block b = St.fresh.disk.block b := by
  have hmet : KeyCall.Met [0] risenAndFallen St.fresh fun _ => none :=
    KeyCall.met_of_few _ few_none (by decide)
  have h := deletions_like_map (by decide) root_fresh risenAndFallen (by decide) (by decide) hmet
  have hdone : (exec (KeyCall.answers risenAndFallen) St.fresh).result.isSome = true := by decide +kernel
  obtain ⟨r,hr⟩ := Option.isSome_iff_exists.1 hdone
  have hrun := Prog.Outcome.result_eq_some.1 hr
  rw [hrun] at h
  have hans : (KeyCall.ofMaps (fun _ => none) risenAndFallen).1 =
      List.replicate 35 (0, none) ++ [(QNOKEY, none),(0, some 12)] := by decide +kernel
  exact ⟨r,hrun,h.1.trans hans,h.2⟩

end Run

end Btlib
