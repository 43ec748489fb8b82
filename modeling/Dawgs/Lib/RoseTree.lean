import Mathlib

/-!
# Trees with labels

A tree whose nodes carry a label and any number of children, the sum of the
weights of its labels, its list of labels, and a function applied to all of
them. A label may be infinitely heavy.
-/

namespace Dawgs.Lib

open List

inductive RoseTree (L : Type) where
  | node (label : L) (children : List (RoseTree L))

namespace RoseTree

variable {L : Type} (w : L → ℕ∞)

mutual

def weight : RoseTree L → ℕ∞
  | .node label children => w label + weights children

def weights : List (RoseTree L) → ℕ∞
  | [] => 0
  | t :: ts => weight t + weights ts

end

@[simp] theorem weight_node (label : L) (children : List (RoseTree L)) :
    weight w (.node label children) = w label + weights w children := by
  rw [weight]

@[simp] theorem weights_nil : weights w ([] : List (RoseTree L)) = 0 := by
  rw [weights]

@[simp] theorem weights_cons (t : RoseTree L) (ts : List (RoseTree L)) :
    weights w (t :: ts) = weight w t + weights w ts := by
  rw [weights]

@[simp] theorem weights_append (ts ts' : List (RoseTree L)) :
    weights w (ts ++ ts') = weights w ts + weights w ts' := by
  induction ts with
  | nil => simp
  | cons t ts ih => simp [ih, add_assoc]

theorem weights_perm {ts ts' : List (RoseTree L)} (h : ts.Perm ts') :
    weights w ts = weights w ts' := by
  induction h with
  | nil => rfl
  | cons t _ ih => simp [ih]
  | swap t t' ts => simp [add_left_comm]
  | trans _ _ ih ih' => rw [ih, ih']

/-- Something infinitely heavy makes the whole so. -/
theorem weights_eq_top_of_mem {t : RoseTree L} {ts : List (RoseTree L)}
    (h : t ∈ ts) (ht : weight w t = ⊤) : weights w ts = ⊤ := by
  induction ts with
  | nil => cases h
  | cons t' ts ih =>
    rcases mem_cons.mp h with rfl | hmem
    · simp [ht]
    · simp [ih hmem]

/-! ### Labels -/

mutual

def labels : RoseTree L → List L
  | .node label children => label :: labelsAll children

def labelsAll : List (RoseTree L) → List L
  | [] => []
  | t :: ts => labels t ++ labelsAll ts

end

theorem labelsAll_eq_flatMap (ts : List (RoseTree L)) : labelsAll ts = ts.flatMap labels := by
  induction ts with
  | nil => rw [labelsAll, flatMap_nil]
  | cons t ts ih => rw [labelsAll, flatMap_cons, ih]

variable {L' L'' : Type} (f : L → L')

mutual

def map : RoseTree L → RoseTree L'
  | .node label children => .node (f label) (mapAll children)

def mapAll : List (RoseTree L) → List (RoseTree L')
  | [] => []
  | t :: ts => map t :: mapAll ts

end

@[simp] theorem map_node (label : L) (children : List (RoseTree L)) :
    map f (.node label children) = .node (f label) (mapAll f children) := by
  rw [map]

@[simp] theorem mapAll_nil : mapAll f ([] : List (RoseTree L)) = [] := by
  rw [mapAll]

@[simp] theorem mapAll_cons (t : RoseTree L) (ts : List (RoseTree L)) :
    mapAll f (t :: ts) = map f t :: mapAll f ts := by
  rw [mapAll]

theorem mapAll_eq_map (ts : List (RoseTree L)) : mapAll f ts = ts.map (map f) := by
  induction ts with
  | nil => rw [mapAll_nil, map_nil]
  | cons t ts ih => rw [mapAll_cons, map_cons, ih]

mutual

theorem map_map (g : L' → L'') (t : RoseTree L) : map g (map f t) = map (g ∘ f) t := by
  match t with
  | .node label children => rw [map_node, map_node, map_node, mapAll_mapAll, Function.comp_apply]

theorem mapAll_mapAll (g : L' → L'') (ts : List (RoseTree L)) :
    mapAll g (mapAll f ts) = mapAll (g ∘ f) ts := by
  match ts with
  | [] => rw [mapAll_nil, mapAll_nil, mapAll_nil]
  | t :: ts => rw [mapAll_cons, mapAll_cons, mapAll_cons, map_map, mapAll_mapAll]

end

mutual

theorem map_id (t : RoseTree L) : map id t = t := by
  match t with
  | .node label children => rw [map_node, mapAll_id, id_eq]

theorem mapAll_id (ts : List (RoseTree L)) : mapAll id ts = ts := by
  match ts with
  | [] => rw [mapAll_nil]
  | t :: ts => rw [mapAll_cons, map_id, mapAll_id]

end

variable {f} {g : L → L'}

mutual

/-- Two functions give one tree if they agree on its labels. -/
theorem map_eq_map_iff (t : RoseTree L) :
    map f t = map g t ↔ ∀ label ∈ labels t, f label = g label := by
  match t with
  | .node label children =>
    rw [map_node, map_node, labels, node.injEq, mapAll_eq_mapAll_iff, forall_mem_cons]

theorem mapAll_eq_mapAll_iff (ts : List (RoseTree L)) :
    mapAll f ts = mapAll g ts ↔ ∀ label ∈ labelsAll ts, f label = g label := by
  match ts with
  | [] =>
    exact iff_of_true rfl nofun
  | t :: ts =>
    rw [mapAll_cons, mapAll_cons, labelsAll, cons.injEq,
      map_eq_map_iff, mapAll_eq_mapAll_iff, forall_mem_append]

end

end RoseTree

end Dawgs.Lib
