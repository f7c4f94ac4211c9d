import Mathlib.Data.List.Induction
import Mathlib.Data.List.Nodup
import TinyFront.Editor.Workspace

/-!
What is held after any requests about any documents. Main statement: at every moment the open documents
are those that were given a text since they were last closed, each one is what reading its last text
shows, and every reply is the one that a server would give that has had this text alone.
-/
namespace TinyFront.Editor

/-- The request was made, and every one after it is of a kind. -/
def Since (history : List Request) (q : Request) (kind : Request → Prop) : Prop :=
  ∃ before later, history = before ++ q :: later ∧ ∀ r ∈ later, kind r

/-- The requests gave the document a text and did not close it afterwards. -/
def LeftOpen (history : List Request) (name : String) : Prop :=
  ∃ text, Since history ⟨name, .revised text⟩ fun r => r ≠ ⟨name, .closed⟩

/-- The document stays what it is, open or not. -/
def Action.keeps : Action → Bool
  | .revised _ | .closed => false
  | .completion | .symbols | .formatting => true

/-- The requests gave the document this text, and neither another one nor closed it afterwards. -/
def LastText (history : List Request) (name text : String) : Prop :=
  Since history ⟨name, .revised text⟩ fun r => r.name = name → r.action.keeps = true

variable {history : List Request} {q r : Request} {kind : Request → Prop} {name text : String}

@[simp] theorem not_since_nil : ¬ Since [] q kind := by
  rintro ⟨before, later, h, -⟩
  simp at h

theorem since_snoc : Since (history ++ [r]) q kind ↔ r = q ∨ kind r ∧ Since history q kind := by
  constructor
  · rintro ⟨before, later, heq, hkind⟩
    rcases List.eq_nil_or_concat later with rfl | ⟨mid, last, rfl⟩
    · have hlast := List.append_inj' heq rfl
      exact .inl (List.singleton_inj.mp hlast.2)
    · rw [List.concat_eq_append] at heq hkind
      have hlast : history = before ++ q :: mid ∧ [r] = [last] := List.append_inj' (by simpa using heq) rfl
      obtain rfl : r = last := List.singleton_inj.mp hlast.2
      exact .inr ⟨hkind r (by simp), before, mid, hlast.1, fun s hs => hkind s (by simp [hs])⟩
  · rintro (rfl | ⟨hr, before, later, rfl, hkind⟩)
    · exact ⟨history, [], rfl, by simp⟩
    · refine ⟨before, later ++ [r], by simp, fun s hs => ?_⟩
      rcases List.mem_append.mp hs with hs | hs
      · exact hkind s hs
      · rwa [List.mem_singleton.mp hs]

theorem leftOpen_iff : LeftOpen history name ↔ ∃ text, LastText history name text := by
  induction history using List.reverseRecOn with
  | nil => simp [LeftOpen, LastText]
  | append_singleton history r ih =>
    simp only [LeftOpen, LastText] at ih
    simp only [LeftOpen, LastText, since_snoc, exists_or, exists_and_left, ih]
    obtain ⟨other, action⟩ := r
    by_cases hname : other = name
    · cases action <;> simp [hname, Action.keeps]
    · simp [hname]

theorem Document.tokens_ne_nil_iff (name text : String) :
    (ofText name text).tokens ≠ [] ↔ ∃ ts, lex name text = .ok ts := by
  rw [ofText]
  cases hlex : lex name text with
  | error reports => simp
  | ok ts =>
    have hne := lex_ne_nil hlex
    simp only
    split <;> simp [hne]

namespace Workspace

/-- What is held after requests one after the other. -/
def after (w : Workspace) (history : List Request) : Workspace :=
  history.foldl (fun w r => (w.handle r).2) w

@[simp] theorem after_nil (w : Workspace) : w.after [] = w := rfl

@[simp] theorem after_snoc (w : Workspace) (history : List Request) (r : Request) :
    w.after (history ++ [r]) = ((w.after history).handle r).2 := by
  simp [after]

/-- A reply depends on the requests before it by what they have left. -/
theorem handleAll_append (w : Workspace) (history later : List Request) :
    w.handleAll (history ++ later) = w.handleAll history ++ (w.after history).handleAll later := by
  induction history generalizing w with
  | nil => rfl
  | cons r history ih => simp [handleAll, after, ih]

@[simp] theorem length_handleAll (w : Workspace) (history : List Request) :
    (w.handleAll history).length = history.length := by
  induction history generalizing w with
  | nil => rfl
  | cons r history ih => simp [handleAll, ih]

theorem find?_handle (w : Workspace) (r : Request) (name : String) :
    (w.handle r).2.find? name =
      if r.name = name then
        match r.action with
        | .revised text => some (Document.ofText name text)
        | .closed => none
        | _ => w.find? name
      else w.find? name := by
  obtain ⟨other, action⟩ := r
  by_cases hname : other = name
  · subst hname
    cases action <;> simp [handle, find?_put, find?_close]
  · cases action <;> simp [handle, find?_put, find?_close, hname, Ne.symm hname]

/-- The open document of a name is what reading the last text shows that it was given. -/
theorem find?_after (history : List Request) (name : String) (d : Document) :
    (empty.after history).find? name = some d ↔
      ∃ text, LastText history name text ∧ d = Document.ofText name text := by
  induction history using List.reverseRecOn with
  | nil => simp [LastText]
  | append_singleton history r ih =>
    simp only [LastText] at ih
    simp only [after_snoc, find?_handle, LastText, since_snoc]
    obtain ⟨other, action⟩ := r
    by_cases hname : other = name
    · subst hname
      cases action with
      | revised text => simp [Action.keeps, eq_comm (a := d)]
      | closed => simp [Action.keeps]
      | _ => simpa [Action.keeps] using ih
    · simpa [hname] using ih

theorem nodup_names_close {w : Workspace} (h : w.names.Nodup) (name : String) :
    (w.close name).names.Nodup :=
  h.sublist (List.filter_sublist.map _)

theorem nodup_names_put {w : Workspace} (h : w.names.Nodup) (d : Document) : (w.put d).names.Nodup := by
  have hfree : d.name ∉ (w.close d.name).names := by
    simp [mem_names_iff, find?_close]
  exact List.nodup_cons.mpr ⟨hfree, nodup_names_close h d.name⟩

theorem nodup_names_handle {w : Workspace} (h : w.names.Nodup) (r : Request) :
    (w.handle r).2.names.Nodup := by
  obtain ⟨name, action⟩ := r
  cases action with
  | revised text => exact nodup_names_put h _
  | closed => exact nodup_names_close h name
  | _ => exact h

theorem nodup_names_after (history : List Request) : (empty.after history).names.Nodup := by
  induction history using List.reverseRecOn with
  | nil => exact List.nodup_nil
  | append_singleton history r ih =>
    rw [after_snoc]
    exact nodup_names_handle ih r

theorem find?_of_mem {w : Workspace} (h : w.names.Nodup) {d : Document} (hd : d ∈ w.documents) :
    w.find? d.name = some d := by
  have hfound : (w.find? d.name).isSome = true :=
    (mem_names_iff w d.name).mp (List.mem_map_of_mem hd)
  obtain ⟨e, he⟩ := Option.isSome_iff_exists.mp hfound
  have hname : e.name = d.name := by simpa using List.find?_some he
  rw [he, List.inj_on_of_nodup_map h (List.mem_of_find?_eq_some he) hd hname]

/-- Whatever is held, a reply is about the document of the request's name, except that closing one tells
of all that remain. -/
theorem reply_congr {w v : Workspace} (hr : r.action ≠ .closed) (h : w.find? r.name = v.find? r.name) :
    (w.handle r).1 = (v.handle r).1 := by
  obtain ⟨name, action⟩ := r
  rw [handle, handle, h]
  cases action with
  | closed => exact absurd rfl hr
  | _ => rfl

/-- What is held, judged by the requests that there were. -/
structure Follows (w : Workspace) (history : List Request) : Prop where
  nodup : w.names.Nodup
  names : ∀ name, name ∈ w.names ↔ LeftOpen history name
  document : ∀ d ∈ w.documents, ∃ text, LastText history d.name text ∧ d = .ofText d.name text
  program : ∀ d ∈ w.documents, d.program.isSome = true ↔ d.notices = []
  tokens : ∀ d ∈ w.documents, d.tokens ≠ [] ↔ ∃ ts, lex d.name d.source.content = .ok ts

theorem follows_after (history : List Request) : (empty.after history).Follows history := by
  have hdocument : ∀ d ∈ (empty.after history).documents,
      ∃ text, LastText history d.name text ∧ d = .ofText d.name text := fun d hd =>
    (find?_after history d.name d).mp (find?_of_mem (nodup_names_after history) hd)
  refine ⟨nodup_names_after history, fun name => ?_, hdocument, fun d hd => ?_, fun d hd => ?_⟩
  · rw [mem_names_iff, Option.isSome_iff_exists, leftOpen_iff]
    simp only [find?_after]
    exact ⟨fun ⟨_, text, htext, _⟩ => ⟨text, htext⟩, fun ⟨text, htext⟩ => ⟨_, text, htext, rfl⟩⟩
  · obtain ⟨text, -, heq⟩ := hdocument d hd
    rw [heq]
    exact Document.program_isSome_iff _ _
  · obtain ⟨text, -, heq⟩ := hdocument d hd
    rw [heq]
    simpa using Document.tokens_ne_nil_iff _ _

/-- What a server holds that has had one text and nothing else. -/
def fresh (name text : String) : Workspace := (empty.handle ⟨name, .revised text⟩).2

/-- What a server holds follows from the latest texts. After any requests the open documents are those
that were given a text since they were last closed, and each is what reading the last text of its name
shows, with a program exactly when there are no notices and with tokens exactly when the text has
tokens. The reply to the next request is the one of a server that has had only the last text of that
name, or nothing if the document is not open; and what opening or changing a document publishes is what
a server publishes that has had nothing at all. -/
theorem handleAll_follows_texts (history later : List Request) (r : Request) :
    (empty.after history).Follows history ∧
    ∃ reply, (empty.handleAll (history ++ r :: later))[history.length]? = some reply ∧
      (∀ text, r.action = .revised text → reply = .published (.ofText r.name text) ∧
        reply = (empty.handle r).1) ∧
      (r.action ≠ .closed →
        (∀ text, LastText history r.name text → reply = ((fresh r.name text).handle r).1) ∧
        (¬ LeftOpen history r.name → reply = (empty.handle r).1)) := by
  refine ⟨follows_after history, ((empty.after history).handle r).1, ?_, ?_, fun hr => ⟨?_, ?_⟩⟩
  · rw [handleAll_append, List.getElem?_append_right (by simp)]
    simp [handleAll]
  · intro text htext
    obtain ⟨name, action⟩ := r
    subst htext
    exact ⟨rfl, rfl⟩
  · intro text htext
    refine reply_congr hr ?_
    have hfound := (find?_after history r.name _).mpr ⟨text, htext, rfl⟩
    rw [hfound, fresh, find?_handle, if_pos rfl]
  · intro hopen
    refine reply_congr hr ?_
    rw [find?_empty, Option.eq_none_iff_forall_ne_some]
    intro d hd
    have hlast := (find?_after history r.name d).mp hd
    exact hopen (leftOpen_iff.mpr ⟨_, hlast.choose_spec.1⟩)

theorem handleAll_follows_texts_of_two :
    let history : List Request :=
      [⟨"a.at", .revised "fn"⟩, ⟨"b.at", .revised "1"⟩, ⟨"a.at", .closed⟩, ⟨"b.at", .revised "fn f{1}"⟩]
    LastText history "b.at" "fn f{1}" ∧ ¬ LeftOpen history "a.at" ∧
    (empty.after history).Follows history ∧
    (empty.handleAll (history ++ [⟨"b.at", .formatting⟩]))[4]? =
      some ((fresh "b.at" "fn f{1}").handle ⟨"b.at", .formatting⟩).1 ∧
    (empty.handleAll (history ++ [⟨"a.at", .symbols⟩]))[4]? =
      some (empty.handle ⟨"a.at", .symbols⟩).1 := by
  intro history
  have hlast : LastText history "b.at" "fn f{1}" := ⟨history.take 3, [], rfl, by simp⟩
  have hclosed : ¬ LeftOpen history "a.at" := by
    have hsplit : history = ([⟨"a.at", .revised "fn"⟩, ⟨"b.at", .revised "1"⟩] ++ [⟨"a.at", .closed⟩]) ++
      [⟨"b.at", .revised "fn f{1}"⟩] := rfl
    simp only [hsplit, LeftOpen, since_snoc]
    simp
  obtain ⟨hfollows, reply, hat, -, hreply⟩ := handleAll_follows_texts history [] ⟨"b.at", .formatting⟩
  obtain ⟨-, other, hother, -, hothers⟩ := handleAll_follows_texts history [] ⟨"a.at", .symbols⟩
  refine ⟨hlast, hclosed, hfollows, hat.trans ?_, hother.trans ?_⟩
  · rw [(hreply (by simp)).1 _ hlast]
  · rw [(hothers (by simp)).2 hclosed]

end Workspace
end TinyFront.Editor
