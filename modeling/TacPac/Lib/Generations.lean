import Mathlib.Data.List.Basic

/-!
# Populations: everything there ages, then newcomers join

A list that changes in one way only: at each step every member is updated by the
same function, and the step's newcomers are appended. Such a list has a closed
form (`evolve_eq`): each member is what it was when it joined, aged by the steps
that came after, and the order of joining is the order of the list.
-/

namespace TacPac.Lib

variable {C A B : Type}

/-- One step after another. -/
def evolve (age : C → A → A) (born : C → List A) (cs : List C) (as : List A) : List A :=
  cs.foldl (fun as c => as.map (age c) ++ born c) as

/-- A member, through a list of steps. -/
def aged (age : C → A → A) (cs : List C) (a : A) : A := cs.foldl (fun a c => age c a) a

/-- Everybody who ever joins, each with the steps that come after. -/
def births (born : C → List B) : List C → List (B × List C)
  | [] => []
  | c :: later => (born c).map (fun b => (b, later)) ++ births born later

theorem births_map (f : B → A) (born : C → List B) (cs : List C) :
    births (fun c => (born c).map f) cs = (births born cs).map (fun b => (f b.1, b.2)) := by
  induction cs with
  | nil => rfl
  | cons c later ih =>
      simp only [births, List.map_append, List.map_map, ih]
      rfl

/-- The steps that come after are steps. -/
theorem mem_of_mem_births {born : C → List B} {cs : List C} {b : B × List C}
    (hb : b ∈ births born cs) {c : C} (hc : c ∈ b.2) : c ∈ cs := by
  induction cs with
  | nil => exact absurd hb (by simp [births])
  | cons c' later ih =>
      rcases List.mem_append.mp hb with h | h
      · obtain ⟨x, -, rfl⟩ := List.mem_map.mp h
        exact List.mem_cons_of_mem _ hc
      · exact List.mem_cons_of_mem _ (ih h)

/-- **The closed form.** -/
theorem evolve_eq (age : C → A → A) (born : C → List A) (cs : List C) : ∀ as : List A,
    evolve age born cs as
      = as.map (aged age cs) ++ (births born cs).map (fun b => aged age b.2 b.1) := by
  induction cs with
  | nil =>
      intro as
      show as = as.map (fun a => a) ++ []
      rw [List.map_id', List.append_nil]
  | cons c later ih =>
      intro as
      show evolve age born later (as.map (age c) ++ born c) = _
      rw [ih, births, List.map_append, List.map_append, List.map_map, List.map_map,
        List.append_assoc]
      rfl

end TacPac.Lib
