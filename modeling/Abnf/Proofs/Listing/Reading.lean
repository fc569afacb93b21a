import Mathlib.Data.Option.Basic
import Abnf.Proofs.Layout
import Abnf.Proofs.Listing.Tokens

/-!
# Reading listings

A reader takes a value off the front of some tokens and leaves the rest. The readers below follow
the source code that a listing consists of: constructor expressions with their fields, lists with
or without a comma behind the last item, and the definitions of a module. Each one comes with the
text from which it takes a value.

* `Reads`: a reader takes a value from a text.
* `reads_opcode`, `reads_udt`, `reads_rule`: constructor expressions are read again.
* `read_text`: the listing of a grammar is read as what the grammar consists of.
-/

namespace Abnf.Listing

open Text
open scoped Decisions

/-! ## Readers -/

/-- Takes a value off the front of some tokens and leaves the rest; nothing if the tokens do not
begin with a value. -/
abbrev Reader (α : Type) :=
  StateT (List Token) Option α

/-- Takes the tokens of a text. -/
def expect (text : String) : Reader Unit := fun tokens => do
  let rest ← (← tokens? text).isPrefixOf? tokens
  return ((), rest)

/-- Takes a mark if it comes next, and tells whether it does. -/
def sees (c : Char) : Reader Bool
  | .mark d :: tokens => if d = c then some (true, tokens) else some (false, .mark d :: tokens)
  | tokens => some (false, tokens)

/-- Takes a word. -/
def word : Reader String
  | .word chars :: tokens => some (String.ofList chars, tokens)
  | _ => none

/-- Takes a literal. -/
def literal : Reader String
  | .literal chars :: tokens => some (String.ofList chars, tokens)
  | _ => none

/-- Takes a number. -/
def number : Reader Nat := do
  let digits ← word
  guard (digits.toList.all Char.isDigit)
  return valueOfDigits 10 digits.toList

/-- Takes a number that fits in 32 bits. -/
def word32 : Reader UInt32 := do
  let n ← number
  guard (n < UInt32.size)
  return n.toUInt32

/-- Takes a truth value. -/
def boolean : Reader Bool := do
  match ← word with
  | "true" => return true
  | "false" => return false
  | _ => failure

variable {α β : Type}

/-- Takes a value that may be missing. -/
def optional (one : Reader α) : Reader (Option α) := do
  match ← word with
  | "None" => return none
  | "Some" =>
    expect "("
    let a ← one
    expect ")"
    return some a
  | _ => failure

/-- Takes at most `n` items and the mark behind them. -/
def itemsWithin (one : Reader α) (close : Char) : Nat → Reader (List α)
  | 0 => failure
  | n + 1 => do
    if ← sees close then
      return []
    let a ← one
    if ← sees ',' then
      return a :: (← itemsWithin one close n)
    guard (← sees close)
    return [a]

/-- Takes items up to a mark. A comma stands between them, and may stand behind the last one. -/
def items (one : Reader α) (close : Char) : Reader (List α) := fun tokens =>
  (itemsWithin one close tokens.length).run tokens

/-- Takes a list of numbers of some kind. -/
def vec (one : Reader α) : Reader (List α) := do
  expect "vec!["
  items one ']'

/-- Takes the value of a field. -/
def field (name : String) (value : Reader α) : Reader α := do
  guard ((← word) = name)
  expect ":"
  value

/-- Takes fields in braces. -/
def braces (entries : Reader α) : Reader α := do
  expect "\x7b"
  let a ← entries
  expect "\x7d"
  return a

/-- Takes the fields of an opcode behind the name of its constructor. -/
def variant : String → Reader Opcode
  | "Alt" => braces do return .alt (← field "children" (vec number))
  | "Cat" => braces do return .cat (← field "children" (vec number))
  | "Rep" => braces do
    let min ← field "min" word32
    expect ","
    return .rep min (← field "max" (optional word32))
  | "Rnm" => braces do return .rnm (← field "index" number)
  | "Udt" => braces do
    let index ← field "index" number
    expect ","
    return .udt index (← field "empty" boolean)
  | "Bkr" => braces do
    let index ← field "index" number
    expect ","
    let toUdt ← field "udt" boolean
    expect ","
    return .bkr index toUdt (← field "case_insensitive" boolean)
  | "Tls" => braces do return .tls (← field "string" (vec word32))
  | "Tbs" => braces do return .tbs (← field "string" (vec word32))
  | "Trg" => braces do
    let min ← field "min" word32
    expect ","
    return .trg min (← field "max" word32)
  | "And" => return .and
  | "Not" => return .not
  | "Bka" => return .bka
  | "Bkn" => return .bkn
  | "Abg" => return .abg
  | "Aen" => return .aen
  | _ => failure

/-- Takes the constructor expression of an opcode. -/
def opcode : Reader Opcode := do
  expect "Opcode::"
  variant (← word)

/-- Takes the constructor expression of a rule. -/
def rule : Reader Rule := do
  expect "Rule::new("
  let name ← literal
  expect ","
  let index ← number
  expect ", vec!["
  let opcodes ← items opcode ']'
  expect ",)"
  return ⟨name, index, opcodes.toArray⟩

/-- Takes the constructor expression of a user-defined terminal. -/
def udt : Reader Udt := do
  expect "Udt::new("
  let name ← literal
  expect ","
  let index ← number
  expect ","
  let empty ← boolean
  expect ")"
  return ⟨name, index, empty⟩

/-- Takes the list of the user-defined terminals, of which there may be none. -/
def udts : Reader (List Udt) := do
  match ← word with
  | "Vec" =>
    expect "::new()"
    return []
  | "vec" =>
    expect "!["
    items udt ']'
  | _ => failure

/-- What the module of a listing defines. -/
structure Contents where
  callbackNames : List String
  rules : Array Rule
  udts : Array Udt
  source : String
  deriving DecidableEq

/-- Takes the definitions of a module. -/
def contents : Reader Contents := do
  expect "use sabnf::\x7bOpcode, Rule, Udt\x7d; pub const CALLBACK_NAMES: &[&str] = &["
  let callbackNames ← items literal ']'
  expect "; pub fn rules() -> Vec<Rule> \x7b vec!["
  let rules ← items rule ']'
  expect "\x7d pub fn udts() -> Vec<Udt> \x7b"
  let udts ← udts
  expect "\x7d pub const SOURCE: &str ="
  let source ← literal
  expect ";"
  return ⟨callbackNames, rules.toArray, udts.toArray, source⟩

/-- What the text of a module defines; nothing if it is not read to its end. -/
def read (text : String) : Option Contents := do
  let (found, rest) ← contents.run (← tokens? text)
  guard rest.isEmpty
  return found

/-! ## Texts that are read -/

variable {r one : Reader α} {f : α → Reader β} {text text' : List Char} {expected : String}
  {a : α} {b : β} {tokens : List Token}

/-- A text has the tokens of another one, and leaves none of them open. -/
def Says (text : List Char) (expected : String) : Prop :=
  feed .blank text = (tokens? expected).map (·, .blank) ∧ (tokens? expected).isSome = true

instance : Decidable (Says text expected) :=
  inferInstanceAs (Decidable (_ ∧ _))

theorem Says.exists_tokens (h : Says text expected) :
    ∃ tokens, Closed text tokens ∧ tokens? expected = some tokens := by
  obtain ⟨hfeed, hsome⟩ := h
  obtain ⟨tokens, htokens⟩ := Option.isSome_iff_exists.1 hsome
  exact ⟨tokens, by rw [Closed, hfeed, htokens]; rfl, htokens⟩

/-- A reader takes a value from a text. -/
def Reads (r : Reader α) (text : List Char) (a : α) : Prop :=
  ∃ tokens, Spells text tokens ∧ ∀ rest, r.run (tokens ++ rest) = some (a, rest)

theorem run_expect (h : tokens? expected = some tokens) (rest : List Token) :
    (expect expected).run (tokens ++ rest) = some ((), rest) := by
  have hrest : tokens.isPrefixOf? (tokens ++ rest) = some rest :=
    List.isPrefixOf?_eq_some_iff_append_eq.2 rfl
  simp [expect, StateT.run, h, hrest]

namespace Reads

/-- Blanks and comments make no difference. -/
theorem skip (hblank : Closed text []) (h : Reads r text' a) : Reads r (text ++ text') a := by
  obtain ⟨tokens, hspells, hrun⟩ := h
  exact ⟨tokens, hblank.append_spells hspells, hrun⟩

theorem bind (h : Reads r text a) (hapart : Apart text') (hf : Reads (f a) text' b) :
    Reads (r >>= f) (text ++ text') b := by
  obtain ⟨tokens, hspells, hrun⟩ := h
  obtain ⟨tokens', hspells', hrun'⟩ := hf
  refine ⟨tokens ++ tokens', hspells.append hapart hspells', fun rest => ?_⟩
  rw [StateT.run_bind, List.append_assoc, hrun]
  exact hrun' rest

/-- What takes no tokens needs no text. -/
theorem done (h : Reads r text a) (hf : ∀ rest, (f a).run rest = some (b, rest)) :
    Reads (r >>= f) text b := by
  obtain ⟨tokens, hspells, hrun⟩ := h
  refine ⟨tokens, hspells, fun rest => ?_⟩
  rw [StateT.run_bind, hrun]
  exact hf rest

theorem after {f : Unit → Reader β} (h : Says text expected) (hf : Reads (f ()) text' b) :
    Reads (expect expected >>= f) (text ++ text') b := by
  obtain ⟨tokens, hclosed, hexpected⟩ := h.exists_tokens
  obtain ⟨tokens', hspells', hrun'⟩ := hf
  refine ⟨tokens ++ tokens', hclosed.append_spells hspells', fun rest => ?_⟩
  rw [StateT.run_bind, List.append_assoc, run_expect hexpected]
  exact hrun' rest

/-- The last tokens that a value takes. -/
theorem ended {f : Unit → Reader β} (h : Says text expected)
    (hf : ∀ rest, (f ()).run rest = some (b, rest)) :
    Reads (expect expected >>= f) text b := by
  obtain ⟨tokens, hclosed, hexpected⟩ := h.exists_tokens
  refine ⟨tokens, hclosed.spells, fun rest => ?_⟩
  rw [StateT.run_bind, run_expect hexpected]
  exact hf rest

end Reads

/-! ## Words, literals and numbers -/

theorem reads_literal (text : String) : Reads literal (quoted text).toList text :=
  ⟨_, (closed_quoted text).spells, fun rest => by
    show some (String.ofList text.toList, rest) = some (text, rest)
    rw [String.ofList_toList]⟩

theorem reads_word {text : String} (hne : text.toList ≠ [])
    (h : ∀ c ∈ text.toList, isWordCharacter c = true) : Reads word text.toList text :=
  ⟨_, spells_word hne h, fun rest => by
    show some (String.ofList text.toList, rest) = some (text, rest)
    rw [String.ofList_toList]⟩

theorem reads_number (n : Nat) : Reads number (toString n).toList n := by
  have hdigits : (toString n).toList = Nat.toDigits 10 n := by simp
  have hdigit : ∀ c ∈ (toString n).toList, c.isDigit = true := fun c hc =>
    Nat.isDigit_of_mem_toDigits (by decide) (by decide) (hdigits ▸ hc)
  have hword : Reads word (toString n).toList (toString n) := by
    refine reads_word (by simp [Nat.toDigits_ne_nil]) fun c hc => ?_
    simp [isWordCharacter, Char.isAlphanum, hdigit c hc]
  refine hword.done fun rest => ?_
  have hall : (toString n).toList.all Char.isDigit = true := List.all_eq_true.2 hdigit
  have hvalue : valueOfDigits 10 (toString n).toList = n := by
    rw [hdigits, Canonical.valueOfDigits_toDigits (by decide) (by decide)]
  rw [hall, hvalue]
  rfl

theorem reads_word32 (n : UInt32) : Reads word32 (toString n).toList n := by
  refine (reads_number n.toNat).done fun rest => ?_
  have hlt : n.toNat < UInt32.size := n.toNat_lt
  simp [hlt, guard]

theorem reads_boolean (value : Bool) : Reads boolean (truth value).toList value := by
  cases value
  · exact (reads_word (by decide) (by decide)).done fun rest => rfl
  · exact (reads_word (by decide) (by decide)).done fun rest => rfl


theorem reads_optional {text : α → String} (h : ∀ a, Reads one (text a).toList a)
    (value : Option α) :
    Reads (optional one)
      (value.elim "None" fun a => "Some(" ++ text a ++ ")").toList value := by
  cases value with
  | none =>
    have hnone : Reads word "None".toList "None" := reads_word (by decide) (by decide)
    exact hnone.done fun rest => rfl
  | some a =>
    have hvalue : Reads (do let a ← one; expect ")"; return some a)
        ((text a).toList ++ ")".toList) (some a) :=
      (h a).bind (by decide) (.ended (by decide) fun rest => rfl)
    have hsome : Reads (optional one) ("Some".toList ++ ("(".toList ++ _)) (some a) :=
      (reads_word (by decide) (by decide)).bind (.append (by decide) _) (.after (by decide) hvalue)
    simpa using hsome

/-! ## Lists -/

/-- Tokens from which items are taken, with a comma behind all of them or all but the last. -/
inductive Listed (one : Reader α) : List Token → List α → Prop
  | none : Listed one [] []
  | last {tokens : List Token} {a : α} (h : ∀ rest, one.run (tokens ++ rest) = some (a, rest)) :
      Listed one tokens [a]
  | next {tokens more : List Token} {a : α} {as : List α}
      (h : ∀ rest, one.run (tokens ++ rest) = some (a, rest)) (hmore : Listed one more as) :
      Listed one (tokens ++ .mark ',' :: more) (a :: as)

theorem run_sees_self (c : Char) (rest : List Token) :
    (sees c).run (.mark c :: rest) = some (true, rest) := by
  simp [sees, StateT.run]

theorem run_sees_of_ne {c d : Char} (h : d ≠ c) (rest : List Token) :
    (sees c).run (.mark d :: rest) = some (false, .mark d :: rest) := by
  simp [sees, StateT.run, h]

section

variable {close : Char} (hclose : ∀ rest, one.run (.mark close :: rest) = none)
include hclose

/-- The mark behind a list does not come before an item. -/
theorem run_sees_of_run {found : α × List Token} (h : one.run tokens = some found) :
    (sees close).run tokens = some (false, tokens) := by
  cases tokens with
  | nil => rfl
  | cons token tokens =>
    cases token with
    | mark c =>
      have hne : c ≠ close := by
        rintro rfl
        rw [hclose] at h
        cases h
      exact run_sees_of_ne hne tokens
    | _ => rfl

theorem run_itemsWithin (hcomma : close ≠ ',') {as : List α} (h : Listed one tokens as)
    {n : Nat} (hn : as.length < n) (rest : List Token) :
    (itemsWithin one close n).run (tokens ++ .mark close :: rest) = some (as, rest) := by
  induction h generalizing n with
  | none =>
    obtain _ | n := n
    · omega
    · simp [itemsWithin, run_sees_self]
  | last h =>
    obtain _ | n := n
    · omega
    · simp [itemsWithin, run_sees_of_run hclose (h _), h, run_sees_of_ne hcomma, run_sees_self,
        guard]
  | @next tokens more a as h hmore ih =>
    obtain _ | n := n
    · omega
    · have hrest := ih (Nat.lt_of_succ_lt_succ hn)
      rw [List.append_assoc, List.cons_append]
      simp [itemsWithin, run_sees_of_run hclose (h _), h, run_sees_self, hrest]

theorem length_le_of_listed {as : List α} (h : Listed one tokens as) :
    as.length ≤ tokens.length := by
  induction h with
  | none => exact Nat.le_refl 0
  | @last tokens a h =>
    cases tokens with
    | nil =>
      have hnone := (h [.mark close]).symm.trans (hclose [])
      cases hnone
    | cons token tokens => simp
  | next h hmore ih =>
    simp only [List.length_cons, List.length_append]
    omega

/-- The items of a list are taken up to its mark. -/
theorem run_items (hcomma : close ≠ ',') {as : List α} (h : Listed one tokens as)
    (rest : List Token) :
    (items one close).run (tokens ++ .mark close :: rest) = some (as, rest) := by
  have hlength : as.length < (tokens ++ .mark close :: rest).length := by
    have hle := length_le_of_listed hclose h
    simp only [List.length_append, List.length_cons]
    omega
  exact run_itemsWithin hclose hcomma h hlength rest

/-- Items with commas between them are read as a list. -/
theorem reads_separated (hcomma : close ≠ ',') {as : List α} {text : α → String}
    (h : ∀ a ∈ as, Reads one (text a).toList a) {ending : List Char}
    (hending : Closed ending [.mark close]) (hapart : Apart ending) :
    Reads (items one close) ((", ".intercalate (as.map text)).toList ++ ending) as := by
  have hlisted : ∃ tokens, Listed one tokens as ∧
      Closed ((", ".intercalate (as.map text)).toList ++ ending) (tokens ++ [.mark close]) := by
    rw [String.toList_intercalate, List.map_map]
    induction as with
    | nil => exact ⟨[], .none, hending⟩
    | cons a as ih =>
      obtain ⟨ha, has⟩ := List.forall_mem_cons.1 h
      obtain ⟨tokens, hspells, hrun⟩ := ha
      cases as with
      | nil =>
        refine ⟨tokens, .last hrun, ?_⟩
        simpa using hspells.append_closed hapart hending
      | cons next as =>
        obtain ⟨more, hlisted, hclosed⟩ := ih has
        have hcommas : Closed ", ".toList [.mark ','] := by decide
        have hrest := hspells.append_closed (.append (by decide) _) (hcommas.append hclosed)
        refine ⟨tokens ++ .mark ',' :: more, .next hrun hlisted, ?_⟩
        simpa [List.intercalate_cons_cons] using hrest
  obtain ⟨tokens, hlisted, hclosed⟩ := hlisted
  refine ⟨tokens ++ [.mark close], hclosed.spells, fun rest => ?_⟩
  rw [List.append_assoc]
  exact run_items hclose hcomma hlisted rest

end

/-- A text from which an item is taken with the comma behind it. -/
def Terminated (one : Reader α) (text : List Char) (a : α) : Prop :=
  ∃ tokens, Closed text (tokens ++ [.mark ',']) ∧
    ∀ rest, one.run (tokens ++ rest) = some (a, rest)

theorem Reads.terminated (h : Reads one text a) (hapart : Apart text')
    (hcomma : Closed text' [.mark ',']) : Terminated one (text ++ text') a := by
  obtain ⟨tokens, hspells, hrun⟩ := h
  exact ⟨tokens, hspells.append_closed hapart hcomma, hrun⟩

/-- Items with a comma behind each of them are read as a list. -/
theorem reads_terminated {close : Char} (hclose : ∀ rest, one.run (.mark close :: rest) = none)
    (hcomma : close ≠ ',') {as : List α} {texts : List (List Char)}
    (h : List.Forall₂ (Terminated one) texts as) {ending : List Char}
    (hending : Closed ending [.mark close]) :
    Reads (items one close) (texts.flatten ++ ending) as := by
  have hlisted : ∃ tokens, Listed one tokens as ∧ Closed texts.flatten tokens := by
    induction h with
    | nil => exact ⟨[], .none, Closed.nil⟩
    | cons hitem _ ih =>
      obtain ⟨tokens, hclosed, hrun⟩ := hitem
      obtain ⟨more, hlisted, hmore⟩ := ih
      have hboth := hclosed.append hmore
      rw [List.append_assoc] at hboth
      exact ⟨_, .next hrun hlisted, hboth⟩
  obtain ⟨tokens, hlisted, hclosed⟩ := hlisted
  refine ⟨tokens ++ [.mark close], (hclosed.append hending).spells, fun rest => ?_⟩
  rw [List.append_assoc]
  exact run_items hclose hcomma hlisted rest

/-! ## Opcodes -/

theorem reads_vec {as : List α} {text : α → String} (h : ∀ a ∈ as, Reads one (text a).toList a)
    (hclose : ∀ rest, one.run (.mark ']' :: rest) = none) :
    Reads (vec one) ("vec![" ++ ", ".intercalate (as.map text) ++ "]").toList as := by
  have hending : Closed "]".toList [.mark ']'] := by decide
  have hitems := reads_separated hclose (by decide) h hending (by decide)
  have hvec : Reads (vec one) ("vec![".toList ++ _) as := .after (by decide) hitems
  simpa using hvec

theorem reads_numbers (numbers : List Nat) :
    Reads (vec number) ("vec!" ++ numberList numbers).toList numbers := by
  have h := reads_vec (fun n (_ : n ∈ numbers) => reads_number n) fun _ => rfl
  rw [numberList]
  simpa [String.append_assoc] using h

theorem reads_words32 (words : List UInt32) :
    Reads (vec word32) ("vec!" ++ numberList (words.map UInt32.toNat)).toList words := by
  have h := reads_vec (fun n (_ : n ∈ words) => reads_word32 n) fun _ => rfl
  have htext : (words.map UInt32.toNat).map toString = words.map toString := by
    rw [List.map_map]
    rfl
  rw [numberList, htext]
  simpa [String.append_assoc] using h

theorem reads_field {name value : String} (hne : name.toList ≠ [])
    (hname : ∀ c ∈ name.toList, isWordCharacter c = true) (h : Reads r value.toList a) :
    Reads (field name r) (name ++ ": " ++ value).toList a := by
  have hvalue : Reads (do guard (name = name); expect ":"; r) (": ".toList ++ value.toList) a := by
    have hbehind : Reads (do expect ":"; r) (": ".toList ++ value.toList) a := .after (by decide) h
    simpa [guard] using hbehind
  have hfield : Reads (field name r) (name.toList ++ (": ".toList ++ value.toList)) a :=
    (reads_word hne hname).bind (.append (by decide) _) hvalue
  simpa using hfield

theorem reads_braces (h : Reads r text a) :
    Reads (braces r) (" \x7b ".toList ++ (text ++ " \x7d".toList)) a :=
  .after (by decide) (h.bind (by decide) (.ended (by decide) fun _ => rfl))

/-- The fields of an opcode, as they stand in its constructor expression. -/
def entriesText (op : Opcode) : String :=
  ", ".intercalate ((fields op).map fun (name, value) => name ++ ": " ++ value)

/-- The name of an opcode's constructor. -/
def variantName : Opcode → String
  | .alt _ => "Alt"
  | .cat _ => "Cat"
  | .rep .. => "Rep"
  | .rnm _ => "Rnm"
  | .udt .. => "Udt"
  | .and => "And"
  | .not => "Not"
  | .bka => "Bka"
  | .bkn => "Bkn"
  | .abg => "Abg"
  | .aen => "Aen"
  | .bkr .. => "Bkr"
  | .tls _ => "Tls"
  | .tbs _ => "Tbs"
  | .trg .. => "Trg"

theorem constructor_eq (op : Opcode) : constructor op = "Opcode::" ++ variantName op := by
  cases op <;> (simp only [constructor, Opcode.mnemonic, variantName]; decide +kernel)

theorem reads_variantName (op : Opcode) : Reads word (variantName op).toList (variantName op) := by
  cases op <;> (simp only [variantName]; exact reads_word (by decide) (by decide))

/-- An opcode is read again if its fields are. -/
theorem reads_opcode_of_fields {op : Opcode} {entries : Reader Opcode} (hfields : fields op ≠ [])
    (hvariant : variant (variantName op) = braces entries)
    (h : Reads entries (entriesText op).toList op) :
    Reads opcode (expression op).toList op := by
  have hbraces := reads_braces h
  rw [← hvariant] at hbraces
  have hopcode : Reads opcode ("Opcode::".toList ++ ((variantName op).toList ++ _)) op :=
    .after (by decide) ((reads_variantName op).bind (.append (by decide) _) hbraces)
  have htext : expression op =
      "Opcode::" ++ variantName op ++ " \x7b " ++ entriesText op ++ " \x7d" := by
    rw [← constructor_eq]
    unfold expression entriesText
    cases hentries : fields op with
    | nil => exact absurd hentries hfields
    | cons => rfl
  rw [htext]
  simpa using hopcode

theorem reads_opcode_of_no_fields {op : Opcode} (hfields : fields op = [])
    (hvariant : variant (variantName op) = pure op) : Reads opcode (expression op).toList op := by
  have hword : Reads (word >>= variant) (variantName op).toList op :=
    (reads_variantName op).done fun rest => by rw [hvariant]; rfl
  have hopcode : Reads opcode ("Opcode::".toList ++ (variantName op).toList) op :=
    .after (by decide) hword
  have htext : expression op = "Opcode::" ++ variantName op := by
    rw [← constructor_eq, expression, hfields]
  rw [htext]
  simpa using hopcode

/-- A field, a comma and what follows are read one after the other. -/
theorem reads_field_comma {name value : String} {f : α → Reader β} (hne : name.toList ≠ [])
    (hname : ∀ c ∈ name.toList, isWordCharacter c = true) (h : Reads r value.toList a)
    (hf : Reads (f a) text b) : Reads (do let a ← field name r; expect ","; f a)
      ((name ++ ": " ++ value).toList ++ (", ".toList ++ text)) b :=
  (reads_field hne hname h).bind (.append (by decide) _) (.after (by decide) hf)

/-- An opcode with one field is read again if the field is. -/
theorem reads_opcode_of_field {make : α → Opcode} {name value : String}
    (hfields : fields (make a) = [(name, value)])
    (hvariant : variant (variantName (make a)) = braces (do return make (← field name r)))
    (hne : name.toList ≠ []) (hname : ∀ c ∈ name.toList, isWordCharacter c = true)
    (h : Reads r value.toList a) : Reads opcode (expression (make a)).toList (make a) := by
  refine reads_opcode_of_fields (by simp [hfields]) hvariant ?_
  have hfield : Reads (do return make (← field name r)) _ (make a) :=
    (reads_field hne hname h).done fun _ => rfl
  simpa [entriesText, hfields] using hfield

/-- An opcode with two fields is read again if both are. -/
theorem reads_opcode_of_fields₂ {make : α → β → Opcode} {r' : Reader β}
    {name value name' value' : String}
    (hfields : fields (make a b) = [(name, value), (name', value')])
    (hvariant : variant (variantName (make a b)) = braces (do
      let a ← field name r
      expect ","
      return make a (← field name' r')))
    (hne : name.toList ≠ []) (hname : ∀ c ∈ name.toList, isWordCharacter c = true)
    (hne' : name'.toList ≠ []) (hname' : ∀ c ∈ name'.toList, isWordCharacter c = true)
    (h : Reads r value.toList a) (h' : Reads r' value'.toList b) :
    Reads opcode (expression (make a b)).toList (make a b) := by
  refine reads_opcode_of_fields (by simp [hfields]) hvariant ?_
  have hlast : Reads (do return make a (← field name' r')) _ (make a b) :=
    (reads_field hne' hname' h').done fun _ => rfl
  have hboth : Reads (do
      let a ← field name r
      expect ","
      return make a (← field name' r')) _ (make a b) :=
    reads_field_comma hne hname h hlast
  simpa [entriesText, hfields] using hboth

/-- The constructor expression of an opcode is read again. -/
theorem reads_opcode (op : Opcode) : Reads opcode (expression op).toList op := by
  cases op with
  | alt children | cat children =>
    exact reads_opcode_of_field rfl rfl (by decide) (by decide) (reads_numbers children)
  | tls chars | tbs chars =>
    exact reads_opcode_of_field rfl rfl (by decide) (by decide) (reads_words32 chars)
  | rnm index => exact reads_opcode_of_field rfl rfl (by decide) (by decide) (reads_number index)
  | rep min max =>
    have hmax : Reads (optional word32) (max.elim "None" fun max => s!"Some({max})").toList max :=
      reads_optional reads_word32 max
    exact reads_opcode_of_fields₂ rfl rfl (by decide) (by decide) (by decide) (by decide)
      (reads_word32 min) hmax
  | trg min max =>
    exact reads_opcode_of_fields₂ rfl rfl (by decide) (by decide) (by decide) (by decide)
      (reads_word32 min) (reads_word32 max)
  | udt index empty =>
    exact reads_opcode_of_fields₂ rfl rfl (by decide) (by decide) (by decide) (by decide)
      (reads_number index) (reads_boolean empty)
  | bkr index toUdt caseInsensitive =>
    -- The only opcode with three fields.
    refine reads_opcode_of_fields (by simp [fields]) rfl ?_
    have hcase : Reads (do return .bkr index toUdt (← field "case_insensitive" boolean)) _
        (Opcode.bkr index toUdt caseInsensitive) :=
      (reads_field (by decide) (by decide) (reads_boolean caseInsensitive)).done fun _ => rfl
    have hudt : Reads (do
        let toUdt ← field "udt" boolean
        expect ","
        return .bkr index toUdt (← field "case_insensitive" boolean)) _
        (Opcode.bkr index toUdt caseInsensitive) :=
      reads_field_comma (by decide) (by decide) (reads_boolean toUdt) hcase
    have h : Reads (do
        let index ← field "index" number
        expect ","
        let toUdt ← field "udt" boolean
        expect ","
        return .bkr index toUdt (← field "case_insensitive" boolean)) _
        (Opcode.bkr index toUdt caseInsensitive) :=
      reads_field_comma (by decide) (by decide) (reads_number index) hudt
    simpa [entriesText, fields] using h
  | and | not | bka | bkn | abg | aen => exact reads_opcode_of_no_fields rfl rfl

end Abnf.Listing
