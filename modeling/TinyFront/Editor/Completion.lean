import TinyFront.Editor.Document

/-!
Completions: the keywords, and what a document declares. Main statement: no two completions have
the same label.
-/
namespace TinyFront.Editor

inductive CompletionKind
  | keyword | function | type | variant
  deriving DecidableEq, Repr

/-- The number that editors know the kind by. -/
def CompletionKind.code : CompletionKind → Nat
  | keyword => 14
  | function => 3
  | type => 7
  | variant => 20

structure Completion where
  label : String
  kind : CompletionKind
  deriving DecidableEq, Repr

namespace Completion

def keywords : List Completion :=
  ((TokenKind.keywords.map (·.1)).mergeSort).map fun word => ⟨word, .keyword⟩

variable {σ : Type}

def ofDecl : Decl σ → List Completion
  | .fn n _ _ _ _ => [⟨n, .function⟩]
  | .type n _ (.sum vs) _ => ⟨n, .type⟩ :: vs.map fun v => ⟨v.name, .variant⟩
  | .type n _ (.product _) _ => [⟨n, .type⟩]

/-- Of completions with one label the first stays. -/
def firsts : List Completion → List Completion
  | [] => []
  | c :: cs => c :: (firsts cs).filter fun other => other.label != c.label

theorem nodup_label_firsts (cs : List Completion) : ((firsts cs).map (·.label)).Nodup := by
  induction cs with
  | nil => exact List.nodup_nil
  | cons c cs ih =>
    simp only [firsts, List.map_cons, List.nodup_cons]
    refine ⟨?_, ih.sublist (List.filter_sublist.map _)⟩
    simp only [List.mem_map, List.mem_filter, not_exists, not_and]
    intro other h he
    simp [he] at h

def ofProgram (p : Option (Program σ)) : List Completion :=
  firsts (keywords ++ (p.elim [] fun p => p.decls.flatMap ofDecl))

end Completion
end TinyFront.Editor
