import TinyFront.Tree.Leaf

/-!
Patterns and types. `σ` is what each node records of its place: spans for trees that were read,
nothing for bare ones. Main statement: `map` respects composition.
-/
namespace TinyFront

inductive Pattern (σ : Type)
  | leaf (leaf : Leaf) (span : σ)
  | tuple (elements : List (Pattern σ)) (span : σ)
  | constructor (name : String) (args : List (Pattern σ)) (span : σ)
  deriving Inhabited

inductive Ty (σ : Type)
  | leaf (leaf : Leaf) (span : σ)
  | tuple (elements : List (Ty σ)) (span : σ)
  | var (name : String) (span : σ)
  | app (name : String) (args : List (Ty σ)) (span : σ)
  | arrow (domain codomain : Ty σ) (span : σ)
  | quantified (binders : List String) (body : Ty σ) (span : σ)
  deriving Inhabited

namespace Pattern

variable {σ τ υ : Type}

def span : Pattern σ → σ
  | leaf _ s | tuple _ s | constructor _ _ s => s

mutual

def map (f : σ → τ) : Pattern σ → Pattern τ
  | leaf l s => leaf l (f s)
  | tuple ps s => tuple (mapAll f ps) (f s)
  | constructor n ps s => constructor n (mapAll f ps) (f s)

def mapAll (f : σ → τ) : List (Pattern σ) → List (Pattern τ)
  | [] => []
  | p :: ps => map f p :: mapAll f ps

end

theorem mapAll_eq_map (f : σ → τ) (ps : List (Pattern σ)) : mapAll f ps = ps.map (map f) := by
  induction ps with
  | nil => rfl
  | cons p ps ih => simp [mapAll, ih]

@[simp] theorem map_span (f : σ → τ) (p : Pattern σ) : (p.map f).span = f p.span := by
  cases p <;> rfl

mutual

theorem map_map (f : σ → τ) (g : τ → υ) : ∀ p : Pattern σ, (p.map f).map g = p.map (g ∘ f)
  | leaf _ _ => rfl
  | tuple ps s => by simp [map, mapAll_mapAll f g ps]
  | constructor n ps s => by simp [map, mapAll_mapAll f g ps]

theorem mapAll_mapAll (f : σ → τ) (g : τ → υ) :
    ∀ ps : List (Pattern σ), mapAll g (mapAll f ps) = mapAll (g ∘ f) ps
  | [] => rfl
  | p :: ps => by simp [mapAll, map_map f g p, mapAll_mapAll f g ps]

end

def bare (p : Pattern σ) : Pattern Unit := p.map fun _ => ()

@[simp] theorem bare_map (f : σ → τ) (p : Pattern σ) : (p.map f).bare = p.bare :=
  map_map f (fun _ => ()) p

end Pattern

namespace Ty

variable {σ τ υ : Type}

def span : Ty σ → σ
  | leaf _ s | tuple _ s | var _ s | app _ _ s | arrow _ _ s | quantified _ _ s => s

mutual

def map (f : σ → τ) : Ty σ → Ty τ
  | leaf l s => leaf l (f s)
  | tuple ts s => tuple (mapAll f ts) (f s)
  | var n s => var n (f s)
  | app n ts s => app n (mapAll f ts) (f s)
  | arrow d c s => arrow (map f d) (map f c) (f s)
  | quantified bs t s => quantified bs (map f t) (f s)

def mapAll (f : σ → τ) : List (Ty σ) → List (Ty τ)
  | [] => []
  | t :: ts => map f t :: mapAll f ts

end

theorem mapAll_eq_map (f : σ → τ) (ts : List (Ty σ)) : mapAll f ts = ts.map (map f) := by
  induction ts with
  | nil => rfl
  | cons t ts ih => simp [mapAll, ih]

@[simp] theorem map_span (f : σ → τ) (t : Ty σ) : (t.map f).span = f t.span := by
  cases t <;> rfl

mutual

theorem map_map (f : σ → τ) (g : τ → υ) : ∀ t : Ty σ, (t.map f).map g = t.map (g ∘ f)
  | leaf _ _ => rfl
  | var _ _ => rfl
  | tuple ts s => by simp [map, mapAll_mapAll f g ts]
  | app n ts s => by simp [map, mapAll_mapAll f g ts]
  | arrow d c s => by simp [map, map_map f g d, map_map f g c]
  | quantified bs t s => by simp [map, map_map f g t]

theorem mapAll_mapAll (f : σ → τ) (g : τ → υ) :
    ∀ ts : List (Ty σ), mapAll g (mapAll f ts) = mapAll (g ∘ f) ts
  | [] => rfl
  | t :: ts => by simp [mapAll, map_map f g t, mapAll_mapAll f g ts]

end

def bare (t : Ty σ) : Ty Unit := t.map fun _ => ()

@[simp] theorem bare_map (f : σ → τ) (t : Ty σ) : (t.map f).bare = t.bare :=
  map_map f (fun _ => ()) t

end Ty
end TinyFront
