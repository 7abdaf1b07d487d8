import Mathlib.Data.List.Nodup

-- Doubly linked lists of cells: `node p v nx pv` says that the cell at `p` holds `v` and links to `nx`
-- and back to `pv`.
namespace Links

variable {P V A : Type} {node node' : P → V → A → A → Prop} {step : A → V → A → Prop} {addr : P → A}
  {null prev : A} {p q : P} {ps us : List P} {v w : V} {vs ws : List V}

def front (addr : P → A) (null : A) : List P → A
  | [] => null
  | p :: _ => addr p

def back (addr : P → A) : A → List P → A
  | prev, [] => prev
  | _, p :: ps => back addr (addr p) ps

-- The cells at `ps` hold `vs`, each linked to the next and back to the one before; the first is linked back
-- to `prev`, the last to `null`.
def Linked (node : P → V → A → A → Prop) (addr : P → A) (null : A) : A → List P → List V → Prop
  | _, [], vs => vs = []
  | prev, p :: ps, vs => ∃ v ws, vs = v :: ws ∧ node p v (front addr null ps) prev ∧
      Linked node addr null (addr p) ps ws

-- The values read one after the other from the address `a` on.
def Walk (step : A → V → A → Prop) (null : A) : A → List V → Prop
  | a, [] => a = null
  | a, v :: vs => ∃ b, step a v b ∧ Walk step null b vs

@[simp] theorem back_append (prev : A) (us : List P) (p : P) : back addr prev (us ++ [p]) = addr p := by
  induction us generalizing prev with
  | nil => rfl
  | cons u us ih => exact ih (addr u)

theorem front_append (h : ps ≠ []) (us : List P) : front addr null (ps ++ us) = front addr null ps := by
  cases ps with
  | nil => exact absurd rfl h
  | cons p ps => rfl

-- The end of a list of addresses does not depend on what is before it.
theorem back_append_of_ne (h : ps ≠ []) (prev : A) (us : List P) : back addr prev (us ++ ps) = back addr null ps := by
  obtain ⟨qs,q,rfl⟩ := (List.eq_nil_or_concat' ps).resolve_left h
  rw [← List.append_assoc, back_append, back_append]

theorem back_mem (us : List P) : us = [] ∧ back addr prev us = prev ∨ ∃ u ∈ us, back addr prev us = addr u := by
  rcases List.eq_nil_or_concat' us with rfl | ⟨us,u,rfl⟩
  · exact Or.inl ⟨rfl,rfl⟩
  · exact Or.inr ⟨u,by simp,back_append prev us u⟩

theorem front_mem (ps : List P) : ps = [] ∧ front addr null ps = null ∨ ∃ p ∈ ps, front addr null ps = addr p := by
  cases ps with
  | nil => exact Or.inl ⟨rfl,rfl⟩
  | cons p ps => exact Or.inr ⟨p,List.mem_cons_self,rfl⟩

theorem linked_cons : Linked node addr null prev (p :: ps) (v :: vs) ↔
    node p v (front addr null ps) prev ∧ Linked node addr null (addr p) ps vs := by
  constructor
  · rintro ⟨w,ws,heq,hn,hl⟩
    obtain ⟨rfl,rfl⟩ := List.cons.inj heq
    exact ⟨hn,hl⟩
  · rintro ⟨hn,hl⟩
    exact ⟨v,vs,rfl,hn,hl⟩

theorem Linked.congr (h : Linked node addr null prev ps vs)
    (hn : ∀ p ∈ ps, ∀ v nx pv, node p v nx pv → node' p v nx pv) : Linked node' addr null prev ps vs := by
  induction ps generalizing prev vs with
  | nil => exact h
  | cons p ps ih =>
      obtain ⟨v,ws,rfl,hp,hl⟩ := h
      exact linked_cons.2 ⟨hn p List.mem_cons_self _ _ _ hp,ih hl fun q hq => hn q (List.mem_cons_of_mem _ hq)⟩

theorem Linked.exists_node (h : Linked node addr null prev ps vs) (hp : p ∈ ps) : ∃ v nx pv, node p v nx pv := by
  induction ps generalizing prev vs with
  | nil => exact absurd hp List.not_mem_nil
  | cons q ps ih =>
      obtain ⟨v,ws,rfl,hq,hl⟩ := h
      rcases List.mem_cons.1 hp with rfl | hp
      · exact ⟨_,_,_,hq⟩
      · exact ih hl hp

theorem Linked.snoc (h : Linked node addr null prev (us ++ [p]) vs)
    (hold : ∀ u ∈ us, ∀ v nx pv, node u v nx pv → node' u v nx pv)
    (hlast : ∀ v pv, node p v null pv → node' p v (addr q) pv) (hnew : node' q w null (addr p)) :
    Linked node' addr null prev (us ++ [p] ++ [q]) (vs ++ [w]) := by
  induction us generalizing prev vs with
  | nil =>
      obtain ⟨v,ws,rfl,hp,rfl⟩ := h
      exact linked_cons.2 ⟨hlast _ _ hp,linked_cons.2 ⟨hnew,rfl⟩⟩
  | cons u us ih =>
      obtain ⟨v,ws,rfl,hu,hl⟩ := h
      refine linked_cons.2 ⟨?_,ih hl fun u hu => hold u (List.mem_cons_of_mem _ hu)⟩
      change node' u v (front addr null (us ++ [p] ++ [q])) prev
      rw [front_append (by simp)]
      exact hold u List.mem_cons_self _ _ _ hu

theorem Linked.middle (h : Linked node addr null prev (us ++ p :: ps) (vs ++ v :: ws)) (hlen : us.length = vs.length) :
    node p v (front addr null ps) (back addr prev us) := by
  induction us generalizing prev vs with
  | nil =>
      obtain rfl : vs = [] := List.length_eq_zero_iff.1 hlen.symm
      exact (linked_cons.1 h).1
  | cons u us ih =>
      cases vs with
      | nil => simp at hlen
      | cons w vs => exact ih (linked_cons.1 h).2 (by simpa using hlen)

theorem Linked.length_eq (h : Linked node addr null prev ps vs) : ps.length = vs.length := by
  induction ps generalizing prev vs with
  | nil =>
      obtain rfl : vs = [] := h
      rfl
  | cons p ps ih =>
      obtain ⟨v,ws,rfl,-,hl⟩ := h
      rw [List.length_cons, List.length_cons, ih hl]

theorem front_ne (hne : ∀ q ∈ ps, addr q ≠ addr p) (hnull : null ≠ addr p) : front addr null ps ≠ addr p := by
  cases ps with
  | nil => exact hnull
  | cons q ps => exact hne q List.mem_cons_self

-- Cells that are linked to no cell at `p` stay.
theorem Linked.keep (h : Linked node addr null prev ps vs) (hne : ∀ q ∈ ps, addr q ≠ addr p) (hnull : null ≠ addr p)
    (hprev : prev ≠ addr p)
    (hkeep : ∀ q ∈ ps, ∀ v nx pv, nx ≠ addr p → pv ≠ addr p → node q v nx pv → node' q v nx pv) :
    Linked node' addr null prev ps vs := by
  induction ps generalizing prev vs with
  | nil => exact h
  | cons q ps ih =>
      obtain ⟨v,ws,rfl,hq,hl⟩ := h
      have hne' : ∀ c ∈ ps, addr c ≠ addr p := fun c hc => hne c (List.mem_cons_of_mem _ hc)
      refine linked_cons.2 ⟨hkeep q List.mem_cons_self _ _ _ (front_ne hne' hnull) hprev hq,?_⟩
      exact ih hl hne' (hne q List.mem_cons_self) fun c hc => hkeep c (List.mem_cons_of_mem _ hc)

-- The cell at `p` goes: the two beside it are linked to each other.
theorem Linked.unlink {qs : List P} (h : Linked node addr null prev (us ++ p :: qs) (vs ++ v :: ws))
    (hlen : us.length = vs.length) (hne : ∀ q ∈ us ++ qs, addr q ≠ addr p) (hnull : null ≠ addr p) (hprev : prev ≠ addr p)
    (hkeep : ∀ q ∈ us ++ qs, ∀ v nx pv, nx ≠ addr p → pv ≠ addr p → node q v nx pv → node' q v nx pv)
    (hlast : ∀ u ∈ us, addr u = back addr prev us → ∀ v pv, pv ≠ addr p → node u v (addr p) pv →
      node' u v (front addr null qs) pv)
    (hfirst : ∀ q ∈ qs, addr q = front addr null qs → ∀ v nx, nx ≠ addr p → node q v nx (addr p) →
      node' q v nx (back addr prev us)) :
    Linked node' addr null prev (us ++ qs) (vs ++ ws) := by
  induction us generalizing prev vs with
  | nil =>
      obtain rfl : vs = [] := List.length_eq_zero_iff.1 hlen.symm
      obtain ⟨-,hl⟩ := linked_cons.1 h
      cases qs with
      | nil => exact hl
      | cons q qs =>
          obtain ⟨w,rs,rfl,hq,hl⟩ := hl
          have hne' : ∀ c ∈ qs, addr c ≠ addr p := fun c hc => hne c (List.mem_cons_of_mem _ hc)
          refine linked_cons.2 ⟨hfirst q List.mem_cons_self rfl _ _ (front_ne hne' hnull) hq,?_⟩
          exact hl.keep hne' hnull (hne q List.mem_cons_self) fun c hc => hkeep c (List.mem_cons_of_mem _ hc)
  | cons u us ih =>
      cases vs with
      | nil => simp at hlen
      | cons w vs =>
          obtain ⟨hu,hl⟩ := linked_cons.1 h
          refine linked_cons.2 ⟨?_,ih hl (by simpa using hlen) (fun q hq => hne q (List.mem_cons_of_mem _ hq))
            (hne u List.mem_cons_self) (fun q hq => hkeep q (List.mem_cons_of_mem _ hq))
            (fun c hc => hlast c (List.mem_cons_of_mem _ hc)) hfirst⟩
          cases us with
          | nil => exact hlast u List.mem_cons_self rfl _ _ hprev hu
          | cons c us => exact hkeep u List.mem_cons_self _ _ _ (hne c (List.mem_cons_of_mem _ List.mem_cons_self)) hprev hu

-- The cell at `p` takes another value.
theorem Linked.set {qs : List P} (h : Linked node addr null prev (us ++ p :: qs) (vs ++ v :: ws))
    (hlen : us.length = vs.length) (hkeep : ∀ q ∈ us ++ qs, ∀ v nx pv, node q v nx pv → node' q v nx pv)
    (hset : ∀ nx pv, node p v nx pv → node' p w nx pv) : Linked node' addr null prev (us ++ p :: qs) (vs ++ w :: ws) := by
  induction us generalizing prev vs with
  | nil =>
      obtain rfl : vs = [] := List.length_eq_zero_iff.1 hlen.symm
      obtain ⟨hp,hl⟩ := linked_cons.1 h
      exact linked_cons.2 ⟨hset _ _ hp,hl.congr hkeep⟩
  | cons u us ih =>
      cases vs with
      | nil => simp at hlen
      | cons x vs =>
          obtain ⟨hu,hl⟩ := linked_cons.1 h
          refine linked_cons.2 ⟨?_,ih hl (by simpa using hlen) fun q hq => hkeep q (List.mem_cons_of_mem _ hq)⟩
          exact hkeep u List.mem_cons_self _ _ _ hu

theorem Linked.walk (h : Linked node addr null prev ps vs)
    (hs : ∀ p v nx pv, node p v nx pv → step (addr p) v nx) : Walk step null (front addr null ps) vs := by
  induction ps generalizing prev vs with
  | nil =>
      obtain rfl : vs = [] := h
      rfl
  | cons p ps ih =>
      obtain ⟨v,ws,rfl,hp,hl⟩ := h
      exact ⟨_,hs _ _ _ _ hp,ih hl⟩

theorem Linked.walk_back (h : Linked node addr null prev ps vs)
    (hs : ∀ p v nx pv, node p v nx pv → step (addr p) v pv) (hw : Walk step null prev ws) :
    Walk step null (back addr prev ps) (vs.reverse ++ ws) := by
  induction ps generalizing prev vs ws with
  | nil =>
      obtain rfl : vs = [] := h
      exact hw
  | cons p ps ih =>
      obtain ⟨v,us,rfl,hp,hl⟩ := h
      rw [List.reverse_cons, List.append_assoc]
      exact ih hl ⟨prev,hs _ _ _ _ hp,hw⟩

end Links
