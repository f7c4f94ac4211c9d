import TinyFront.Diagnostic.Basic
import TinyFront.Source.Text
import TinyFront.Text.Quoted
import TinyFront.Token.Basic
import TinyFront.Token.Piece

/-!
From text to tokens. Words, numbers and symbols become tokens that carry their UTF-8 byte range,
an end marker follows the last one, and every stray character is reported.
-/
namespace TinyFront

namespace Piece

def string (p : Piece) : String := String.ofList p.text

def width (p : Piece) : Nat := byteWidth p.text

/-- A lone underscore and the keywords come before names; the first letter tells the two sorts of
name apart. -/
def wordKind (word : List Char) : TokenKind :=
  if word = ['_'] then .underscore
  else
    match TokenKind.ofKeyword? (String.ofList word) with
    | some k => k
    | none => if word.head?.any Char.isUpper then .typeIdentifier else .identifier

/-- The kind of token that the piece stands for, if it stands for one. -/
def kind? (p : Piece) : Option TokenKind :=
  match p.shape with
  | .word => some (wordKind p.text)
  | .number => some .integer
  | .symbol => TokenKind.ofSymbol? p.string
  | _ => none

end Piece

namespace Token

def endMarker (file : String) (offset : Nat) : Token := ⟨.eof, "", ⟨file, offset, offset⟩⟩

def ofPieces (file : String) : (offset : Nat) → List Piece → List Token
  | offset, [] => [endMarker file offset]
  | offset, p :: ps =>
    match p.kind? with
    | some k =>
      ⟨k, p.string, ⟨file, offset, offset + p.width⟩⟩ :: ofPieces file (offset + p.width) ps
    | none => ofPieces file (offset + p.width) ps

theorem ofPieces_ne_nil (file : String) (offset : Nat) (ps : List Piece) :
    ofPieces file offset ps ≠ [] := by
  induction ps generalizing offset with
  | nil => simp [ofPieces]
  | cons p ps ih =>
    unfold ofPieces
    split
    · simp
    · exact ih _

end Token

namespace Diagnostic

def stray (p : Piece) (span : Span) : Diagnostic :=
  ⟨.error, "E100", "unexpected character " ++ Text.quote p.string, [⟨span, ""⟩], []⟩

/-- One report for each stray piece. -/
def ofPieces (file : String) : (offset : Nat) → List Piece → List Diagnostic
  | _, [] => []
  | offset, p :: ps =>
    let later := ofPieces file (offset + p.width) ps
    if p.shape = .stray then stray p ⟨file, offset, offset + p.width⟩ :: later else later

end Diagnostic

/-- All stray characters of a text are reported at once; without any, the text has tokens. -/
def lex (file source : String) : Except (List Diagnostic) (List Token) :=
  let pieces := Piece.cut source.toList
  match Diagnostic.ofPieces file 0 pieces with
  | [] => .ok (Token.ofPieces file 0 pieces)
  | reports => .error reports

theorem lex_ne_nil {file source : String} {ts : List Token} (h : lex file source = .ok ts) :
    ts ≠ [] := by
  simp only [lex] at h
  split at h
  · injection h with h; subst h; exact Token.ofPieces_ne_nil _ _ _
  · contradiction

end TinyFront
