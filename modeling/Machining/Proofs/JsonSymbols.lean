import Machining.Json.Pretty
import Machining.Json.Reader
import Machining.Proofs.Rendering
import Machining.Proofs.Runs

/-!
What is written is read symbol by symbol. A string ends at its closing quote, since no other quote in it is without a
backslash, and every character comes back from its escape. A literal ends with its last letter. Only a number could
go on, which blanks, commas and brackets prevent.
-/

namespace Machining.Json
open Machining.Text

variable {rest : List Char} {c : Char}

theorem munch_symbol {s : Symbol} (tail rest : List Char) (h : symbol c (tail ++ rest) = (s, tail.length)) :
    munch symbol (c :: (tail ++ rest)) = s :: munch symbol rest := by
  rw [munch_cons, h, List.drop_left]

theorem munch_blank (hc : isBlank c = true) (rest : List Char) : munch symbol (c :: rest) = .blank :: munch symbol rest :=
  munch_symbol [] rest (by simp [symbol, hc])

theorem munch_mark (hc : isMark c = true) (rest : List Char) :
    munch symbol (c :: rest) = .mark c :: munch symbol rest := by
  have hblank : isBlank c = false := by
    simp only [isMark, List.contains_iff_mem, List.mem_cons, List.not_mem_nil, or_false] at hc
    rcases hc with rfl | rfl | rfl | rfl | rfl | rfl <;> rfl
  exact munch_symbol [] rest (by simp [symbol, hblank, hc])

/-! ### Strings -/

namespace Draft

def plain (text : String) : Draft := ⟨text, none, true⟩

theorem pushUnit_plain (text : String) {n : Nat} (hn : n < 0xD800) :
    (plain text).pushUnit n = plain (text.push (Char.ofNat n)) := by
  rw [pushUnit, if_neg (by omega), if_neg (by omega)]
  rfl

end Draft

theorem hexDigit?_digitChar : ∀ n < 16, hexDigit? (Nat.digitChar n) = some n := by decide

theorem hexUnit?_control (hc : c.toNat < 0x20) :
    hexUnit? '0' '0' (Nat.digitChar (c.toNat / 16)) (Nat.digitChar (c.toNat % 16)) = some c.toNat := by
  have hzero : hexDigit? '0' = some 0 := rfl
  have hhigh := hexDigit?_digitChar (c.toNat / 16) (by omega)
  have hlow := hexDigit?_digitChar (c.toNat % 16) (Nat.mod_lt _ (by decide))
  have hvalue : (0 * 16 + 0 * 16 + c.toNat / 16) * 16 + c.toNat % 16 = c.toNat := by omega
  simp only [hexUnit?, hzero, hhigh, hlow]
  simpa using hvalue

variable {d : Draft} {count : Nat}

theorem stringFrom_unit {a b e f : Char} {n : Nat} (h : hexUnit? a b e f = some n) (d : Draft) (count : Nat)
    (rest : List Char) :
    stringFrom d count ('\\' :: 'u' :: a :: b :: e :: f :: rest) = stringFrom (d.pushUnit n) (count + 6) rest := by
  rw [stringFrom, h]

theorem stringFrom_short {x : Char} (hx : unescape? x = some c) (hne : x ≠ 'u') :
    stringFrom d count ('\\' :: x :: rest) = stringFrom (d.push c) (count + 2) rest := by
  rw [stringFrom.eq_4 _ _ _ _ fun _ _ _ _ _ h _ => hne h, hx]

theorem stringFrom_plain (hquote : c ≠ '"') (hbackslash : c ≠ '\\') (hc : ¬c.toNat < 0x20) :
    stringFrom d count (c :: rest) = stringFrom (d.push c) (count + 1) rest := by
  rw [stringFrom.eq_5 _ _ _ _ hquote (fun _ _ _ _ _ h _ => hbackslash h) (fun _ _ h _ => hbackslash h), if_neg hc]

theorem escape_cases (c : Char) :
    (∃ x, escape c = ['\\', x] ∧ unescape? x = some c ∧ x ≠ 'u') ∨
    (escape c = ['\\', 'u', '0', '0', Nat.digitChar (c.toNat / 16), Nat.digitChar (c.toNat % 16)] ∧ c.toNat < 0x20) ∨
    (escape c = [c] ∧ c ≠ '"' ∧ c ≠ '\\' ∧ ¬c.toNat < 0x20) := by
  unfold escape
  split_ifs with hquote hbackslash hback hform hfeed hreturn htab hcontrol
  iterate 7
    · subst c
      exact .inl ⟨_, rfl, rfl, by decide⟩
  · exact .inr (.inl ⟨rfl, hcontrol⟩)
  · exact .inr (.inr ⟨rfl, hquote, hbackslash, hcontrol⟩)

theorem stringFrom_escape (text : String) (count : Nat) (c : Char) (rest : List Char) :
    stringFrom (.plain text) count (escape c ++ rest) =
      stringFrom (.plain (text.push c)) (count + (escape c).length) rest := by
  rcases escape_cases c with ⟨x, hescape, hx, hne⟩ | ⟨hescape, hcontrol⟩ | ⟨hescape, hquote, hbackslash, hcontrol⟩ <;>
    rw [hescape]
  · exact stringFrom_short hx hne
  · have hchar : Char.ofNat c.toNat = c := Char.ofNat_toNat c
    have hunit := stringFrom_unit (hexUnit?_control hcontrol) (.plain text) count rest
    rw [Draft.pushUnit_plain text (by omega), hchar] at hunit
    exact hunit
  · exact stringFrom_plain hquote hbackslash hcontrol

theorem stringFrom_flatMap (text : String) (count : Nat) (cs rest : List Char) :
    stringFrom (.plain text) count (cs.flatMap escape ++ '"' :: rest) =
      some (.plain (text ++ String.ofList cs), count + (cs.flatMap escape).length + 1) := by
  induction cs generalizing text count with
  | nil => simp [stringFrom]
  | cons c cs ih =>
    have htext : text.push c ++ String.ofList cs = text ++ String.ofList (c :: cs) := by
      apply String.toList_inj.1
      simp
    rw [List.flatMap_cons, List.append_assoc, stringFrom_escape, ih, htext, List.length_append, Nat.add_assoc count]

theorem symbol_quote {d : Draft} (h : stringFrom .empty 0 rest = some (d, count)) :
    symbol '"' rest = (.scalar (.str d.result), count) := by
  have hblank : isBlank '"' = false := rfl
  have hmark : isMark '"' = false := rfl
  simp [symbol, hblank, hmark, h]

theorem munch_quoted (text : Option String) (rest : List Char) :
    munch symbol (quoted text ++ rest) = .scalar (.str text) :: munch symbol rest := by
  cases text with
  | none =>
    have hunit : hexUnit? 'd' '8' '0' '0' = some 0xD800 := rfl
    have hstring : stringFrom .empty 0 ("\\ud800\"".toList ++ rest) = some (⟨"", some 0xD800, true⟩, 7) := by
      have h := stringFrom_unit hunit .empty 0 ('"' :: rest)
      rw [stringFrom] at h
      exact h
    exact munch_symbol _ rest (symbol_quote hstring)
  | some text =>
    have hstring := stringFrom_flatMap "" 0 text.toList rest
    have htext : "" ++ String.ofList text.toList = text := by simp
    rw [htext, Nat.zero_add, ← List.singleton_append, ← List.append_assoc] at hstring
    have hsymbol : symbol '"' (text.toList.flatMap escape ++ ['"'] ++ rest) =
        (.scalar (.str (some text)), (text.toList.flatMap escape ++ ['"']).length) := by
      rw [symbol_quote hstring, List.length_append]
      rfl
    exact munch_symbol _ rest hsymbol

/-! ### Literals and numbers -/

theorem munch_null (rest : List Char) : munch symbol ("null".toList ++ rest) = .scalar .null :: munch symbol rest :=
  munch_symbol "ull".toList rest rfl

theorem munch_bool (b : Bool) (rest : List Char) :
    munch symbol ((if b then "true" else "false").toList ++ rest) = .scalar (.bool b) :: munch symbol rest := by
  cases b with
  | false => exact munch_symbol "alse".toList rest rfl
  | true => exact munch_symbol "rue".toList rest rfl

def endsNumber (c : Char) : Bool := isBlank c || isMark c

theorem numberTail_of_ends (h : ∀ c ∈ rest.head?, endsNumber c = true) :
    (∀ c ∈ rest.head?, c.isDigit = false) ∧ fractionPart? rest = some [] ∧ exponentPart? rest = some [] := by
  cases rest with
  | nil => exact ⟨by simp, rfl, rfl⟩
  | cons c rest =>
    have hc := h c rfl
    simp only [endsNumber, isBlank, isMark, Bool.or_eq_true, beq_iff_eq, List.contains_iff_mem, List.mem_cons,
      List.not_mem_nil, or_false] at hc
    rcases hc with (((rfl | rfl) | rfl) | rfl) | rfl | rfl | rfl | rfl | rfl | rfl <;>
      exact ⟨by simp, rfl, rfl⟩

theorem wholePart_toDigits (n : Nat) (h : ∀ c ∈ rest.head?, c.isDigit = false) :
    wholePart (Nat.toDigits 10 n ++ rest) = Nat.toDigits 10 n := by
  by_cases hn : n = 0
  · subst hn
    rfl
  · have htake := takeWhile_append_stop (isDigit_toDigits n) h
    have hhead := head_toDigits hn
    obtain ⟨d, digits, hdigits⟩ := List.exists_cons_of_ne_nil (Nat.toDigits_ne_nil : Nat.toDigits 10 n ≠ [])
    rw [hdigits] at htake hhead ⊢
    rw [List.cons_append, wholePart, if_neg (hhead d rfl)]
    exact htake

theorem unsigned?_toDigits (n : Nat) (h : ∀ c ∈ rest.head?, endsNumber c = true) :
    unsigned? (Nat.toDigits 10 n ++ rest) = some (.nat n, (Nat.toDigits 10 n).length) := by
  obtain ⟨hdigit, hfraction, hexponent⟩ := numberTail_of_ends h
  simp [unsigned?, wholePart_toDigits n hdigit, hfraction, hexponent, value_toDigits]

theorem symbol_digit (hc : c.isDigit = true) {v : Json} {length : Nat} (h : unsigned? (c :: rest) = some (v, length)) :
    symbol c rest = (.scalar v, length - 1) := by
  have hne (x : Char) (hx : x.isDigit = false) : c ≠ x := by
    rintro rfl
    exact absurd hc (by simp [hx])
  have hblank : isBlank c = false := by simp [isBlank, hne]
  have hmark : isMark c = false := by simp [isMark, hne]
  simp [symbol, hblank, hmark, hne '"' rfl, hne '-' rfl, hc, h]

theorem munch_nat (n : Nat) (h : ∀ c ∈ rest.head?, endsNumber c = true) :
    munch symbol (Nat.toDigits 10 n ++ rest) = .scalar (.nat n) :: munch symbol rest := by
  have hread := unsigned?_toDigits n h
  have hdigit := isDigit_toDigits n
  obtain ⟨d, digits, hdigits⟩ := List.exists_cons_of_ne_nil (Nat.toDigits_ne_nil : Nat.toDigits 10 n ≠ [])
  rw [hdigits] at hread hdigit ⊢
  exact munch_symbol digits rest (symbol_digit (hdigit d List.mem_cons_self) hread)

theorem munch_otherNumber (h : ∀ c ∈ rest.head?, endsNumber c = true) :
    munch symbol ("-0".toList ++ rest) = .scalar .otherNumber :: munch symbol rest := by
  have hread : unsigned? ('0' :: rest) = some (.nat 0, 1) := unsigned?_toDigits 0 h
  have hsymbol : symbol '-' ('0' :: rest) = (.scalar .otherNumber, 1) := by
    have hblank : isBlank '-' = false := rfl
    have hmark : isMark '-' = false := rfl
    simp [symbol, hblank, hmark, hread]
  exact munch_symbol ['0'] rest hsymbol

end Machining.Json
