import DgxPlatform.Portal.AskText
import DgxPlatform.Portal.OpenFence
import DgxPlatform.Portal.Rejoin

/-! # The text analysis of the page

The functions that `filesUntil` calls, put together: `parseEdits` for the edit blocks of old
conversations, `String.replace` for what they replace, `continuationBody` and `rejoin` for a file
that is resumed, `incompleteResponse` and `isFragment`.
-/

namespace Portal.Playground

open Text (Lowercase contains isJsSpace splitOnce trimEndMatches)
open Ask (Block blockAt fence)
open JsonMachine (Value)

/-! ## Edit blocks -/

def editFence : List Char := fence ++ "edit".toList

/-- The opening line of an edit block: up to the last line feed of the white space. -/
def editOpener (t : List Char) : Option (List Char × Nat) :=
  if editFence <+: t then
    let blanks := (t.drop 7).takeWhile isJsSpace
    if '\n' ∈ blanks then some ("edit".toList, 7 + (blanks.rdropWhile (· ≠ '\n')).length) else none
  else none

/-- The first edit block. -/
def editBlock (content : List Char) : Option Block := content.tails.findSome? (blockAt editOpener true)

def textOf (key : String) (v : Value) : List Char :=
  match Ask.get key.toList v with
  | some (.str s) => s
  | _ => []

/-- One item of the list; there are no properties of `null`. -/
def editOf : Value → Option FileEdit
  | .null => none
  | e => some ⟨Ask.trim (textOf "file" e), textOf "find" e, textOf "replace" e⟩

/-- The list of what may be edits. -/
def editItems (obj : Value) : List Value :=
  match Ask.get "edits".toList obj with
  | some (.arr xs) => xs
  | _ => if (Ask.get "find".toList obj).any Ask.truthy then [obj] else []

/-- `parseEdits`: whatever throws, there are no edits. -/
def parseEdits (content : List Char) : List FileEdit :=
  match (editBlock content).bind fun b => Repair.readJson (Ask.trim b.body) with
  | none => []
  | some .null => []
  | some obj => (((editItems obj).mapM editOf).getD []).filter fun e => e.find ≠ []

/-- `[A-Za-z0-9_]`. -/
def isWord (c : Char) : Bool := c.isAlphanum || c = '_'

/-- The answer holds an edit or a questions block. -/
def hasProtocol (content : List Char) : Bool :=
  content.tails.any fun t =>
    [editFence, fence ++ "ask".toList].any fun word =>
      decide (word <+: t) && !((t.drop word.length).head?.any isWord)

/-! ## `String.replace` -/

/-- What the replacement text stands for: the match, what is in front of it or behind it, and
characters. -/
def expand (found before after : List Char) : List Char → List Char
  | '$' :: '$' :: t => '$' :: expand found before after t
  | '$' :: '&' :: t => found ++ expand found before after t
  | '$' :: '\x60' :: t => before ++ expand found before after t
  | '$' :: '\x27' :: t => after ++ expand found before after t
  | c :: t => c :: expand found before after t
  | [] => []

/-- `String.prototype.replace` of the first occurrence of a text. -/
def jsReplace (t find replace : List Char) : List Char :=
  match splitOnce find t with
  | some (a, b) => a ++ expand find a b replace ++ b
  | none => t

/-! ## Resumes -/

section Resume

variable (L : Lowercase)

/-- `continuationBody`. -/
def continuationBody (content : List Char) : List Char :=
  match content.tails.findSome? (blockAt Ask.artifactOpener false) with
  | some closed => Ask.dropLastNewline closed.body
  | none =>
      match splitOnce fence content with
      | none => content
      | some (before, _) =>
          if (Ask.artifactOpener (Ask.skip content)).isSome then
            ((Ask.openCodeFence L content).map Ask.OpenFence.body).getD content
          else Ask.dropLastNewline before

/-- `containsQuestions`. -/
def containsQuestions (content : List Char) : Bool :=
  (Ask.questionCandidates content).any fun c =>
    !(Ask.fileBounds L content).any fun d => decide (d.1 ≤ c.1 ∧ c.2 ≤ d.2)

/-- `<\/html\s*>\s*$`. -/
def endsHtml (t : List Char) : Bool :=
  t.tails.any fun t => (Ask.htmlEnd t).any fun n => (t.drop n).all isJsSpace

/-- `<!DOCTYPE html|<html[\s>]` at the head of a text. -/
def startsHtml (t : List Char) : Bool :=
  (Ask.expect Char.toLower "<!doctype html".toList t).isSome ||
    (Ask.expect Char.toLower "<html".toList t).any fun rest => rest.head?.any fun c => isJsSpace c || c = '>'

/-- `incompleteResponse`. -/
def incompleteResponse (content : List Char) : Bool :=
  if containsQuestions L content then false
  else
    match Ask.openCodeFence L content with
    | some f => !endsHtml (trimEndMatches isJsSpace f.body)
    | none => content.tails.any startsHtml && !(content.tails.any fun t => (Ask.htmlEnd t).isSome)

end Resume

/-- A text as its units of UTF-16. -/
def toUnits (t : List Char) : Rejoin.JsText :=
  t.flatMap fun c =>
    if c.toNat < 0x10000 then [UInt16.ofNat c.toNat]
    else [UInt16.ofNat (0xD800 + (c.toNat - 0x10000) / 0x400), UInt16.ofNat (0xDC00 + (c.toNat - 0x10000) % 0x400)]

/-- The text of some units; half a character is a replacement character. -/
def ofUnits : Rejoin.JsText → List Char
  | [] => []
  | [u] => [if 0xD800 ≤ u ∧ u < 0xE000 then '\uFFFD' else Char.ofNat u.toNat]
  | u :: v :: t =>
      if 0xD800 ≤ u ∧ u < 0xDC00 ∧ 0xDC00 ≤ v ∧ v < 0xE000 then
        Char.ofNat (0x10000 + (u.toNat - 0xD800) * 0x400 + (v.toNat - 0xDC00)) :: ofUnits t
      else (if 0xD800 ≤ u ∧ u < 0xE000 then '\uFFFD' else Char.ofNat u.toNat) :: ofUnits (v :: t)

/-- `isFragment`: 0.66 of a length is compared exactly. -/
def isFragment (legacy : Option FileEntry) (current : List Char) : Bool :=
  match legacy with
  | none => false
  | some f => decide (800 < utf16Length f.content ∧ 100 * utf16Length current < 66 * utf16Length f.content)

/-- The functions of the page; `t` translates, `fold` is the folding of letters of an expression
without case. -/
def pageParsers (L : Lowercase) (fold : Char → Char) (t : List Char → List Char) : Parsers where
  protocol := hasProtocol
  parseArtifacts := fun content request known =>
    (Ask.parseArtifacts L (Ask.namesOf fold t request known) (Ask.closedContent content)).artifacts.map
      fun a => .code a.title a.lang a.content
  parseEdits := parseEdits
  rejoin := fun base content => ofUnits (Rejoin.rejoin (toUnits base) (toUnits (continuationBody L content)))
  incompleteResponse := incompleteResponse L
  isFragment := isFragment
  replace := jsReplace
  toLowerCase := L.lower

/-! ## Edit blocks are protocol -/

theorem isWord_of_space {c : Char} (h : isJsSpace c = true) : isWord c = false := by
  rw [Bool.eq_false_iff]
  intro hword
  have hcode : c.toNat < 128 := by
    rcases (Bool.or_eq_true _ _).mp hword with hword | hword
    · have hcases := Text.toNat_of_isAlphanum hword
      omega
    · rw [of_decide_eq_true hword]
      decide
  have hall : ∀ n < 128, isJsSpace (Char.ofNat n) = true → isWord (Char.ofNat n) = false := by decide +kernel
  have hspace := hall c.toNat hcode
  rw [Char.ofNat_toNat] at hspace
  rw [hspace h] at hword
  cases hword

theorem hasProtocol_of_edits {content : List Char} (h : parseEdits content ≠ []) : hasProtocol content = true := by
  have hblock : ∃ b, editBlock content = some b := by
    rw [← Option.ne_none_iff_exists']
    intro hnone
    apply h
    rw [parseEdits, hnone]
    rfl
  obtain ⟨b, hb⟩ := hblock
  obtain ⟨t, ht, hmatch⟩ := List.exists_of_findSome?_eq_some hb
  obtain ⟨o, hopen, -⟩ := Option.bind_eq_some_iff.1 hmatch
  refine List.any_eq_true.2 ⟨t, ht, List.any_eq_true.2 ⟨editFence, List.mem_cons_self, ?_⟩⟩
  unfold editOpener at hopen
  dsimp only at hopen
  split_ifs at hopen with hword hline
  -- white space follows, so the word ends there
  have hnext : ((t.drop 7).head?.any isWord) = false := by
    cases hrest : t.drop 7 with
    | nil => rfl
    | cons c rest =>
      rw [hrest] at hline
      refine isWord_of_space ?_
      by_contra hno
      rw [List.takeWhile_cons_of_neg hno] at hline
      cases hline
  have hlength : editFence.length = 7 := rfl
  rw [hlength, hnext, decide_eq_true hword]
  rfl

end Portal.Playground
