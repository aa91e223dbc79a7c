import BatchFlow.Json.Printer
import BatchFlow.Proofs.Decimal.Layout

namespace BatchFlow

/-!
# The text of a value determines the value

A text can be cut where a value ends: a number ends before the first character that is in no number,
a text ends at a quote that is not escaped, and the parts of lists and objects end before a comma or
a bracket. So two values that begin the same text are the same, and what follows them is the same.

* `Number.text_injective` — different numbers have different texts.
* `Json.Follows` — what may follow a value in a text.
* `Json.quote_append_inj` — a text in quotes is cut off.
* `Json.compact_append_inj` — and so is a value.
* `Json.compact_injective` — different values have different texts.
-/

namespace Number

/-- The characters of numbers. -/
def isCharacter (c : Char) : Bool := c.isDigit || ['.', 'e', '+', '-'].contains c

/-- The text of an integer has digits behind a sign. -/
theorem toList_intText (i : ℤ) : (Number.int i).text.toList =
    (if i < 0 then ['-'] else []) ++ (toString i.natAbs).toList := by
  show (Int.repr i).toList = _
  cases i with
  | ofNat n => rfl
  | negSucc n =>
    rw [if_pos (Int.negSucc_lt_zero n)]
    show ("-" ++ (n + 1).repr).toList = _
    rw [String.toList_append]
    rfl

/-- The text of an integer consists of digits and a sign. -/
theorem mem_intText {i : ℤ} {c : Char} (hc : c ∈ (Number.int i).text.toList) :
    c.isDigit = true ∨ c = '-' := by
  rw [toList_intText] at hc
  rcases List.mem_append.1 hc with hc | hc
  · split at hc
    · exact Or.inr (List.mem_singleton.1 hc)
    · cases hc
  · exact Or.inl ((Decimal.Layout.digits_eq _).2.1 c hc)

/-- Different integers have different texts. -/
theorem intText_injective {i i' : ℤ} (h : (Number.int i).text = (Number.int i').text) :
    i = i' := by
  have htext := congrArg String.toList h
  rw [toList_intText, toList_intText] at htext
  obtain ⟨hne, hdigits, hvalue⟩ := Decimal.Layout.digits_eq i.natAbs
  obtain ⟨hne', hdigits', hvalue'⟩ := Decimal.Layout.digits_eq i'.natAbs
  -- a sign is no digit, so the signs agree and so do the digits behind them
  have hsign : ∀ {digits digits' : List Char}, digits ≠ [] →
      (∀ c ∈ digits, c.isDigit = true) → digits ≠ '-' :: digits' := by
    rintro digits digits' - hall rfl
    exact absurd (hall '-' List.mem_cons_self) (by decide)
  have hsame : (i < 0 ↔ i' < 0) ∧
      (toString i.natAbs).toList = (toString i'.natAbs).toList := by
    split at htext <;> split at htext <;> rename_i hi hi'
    · exact ⟨iff_of_true hi hi', (List.cons.inj htext).2⟩
    · exact absurd htext.symm (hsign hne' hdigits')
    · exact absurd htext (hsign hne hdigits)
    · exact ⟨iff_of_false hi hi', htext⟩
  have habs : i.natAbs = i'.natAbs := by rw [← hvalue, ← hvalue', hsame.2]
  have hneg := hsame.1
  omega

/-- A text of a number is not empty and has characters of numbers only. -/
theorem text_characters (n : Number) :
    n.text.toList ≠ [] ∧ ∀ c ∈ n.text.toList, isCharacter c = true := by
  cases n with
  | int i =>
    constructor
    · rw [toList_intText]
      exact fun hnil => (Decimal.Layout.digits_eq i.natAbs).1 (List.append_eq_nil_iff.1 hnil).2
    · intro c hc
      rcases mem_intText hc with hdigit | rfl
      · simp [isCharacter, hdigit]
      · rfl
  | float x =>
    -- the sign of a double stands before the text of a decimal
    obtain ⟨⟨first, rest, hfirst, -⟩, -, hall⟩ := Decimal.Layout.writeDecimal_chars
      (Decimal.shortest .toEven (binaryParts x.value).2.1 (binaryParts x.value).2.2)
    have htext := Decimal.Layout.write_eq x.isFinite
    show (Decimal.Layout.json.write x.value).toList ≠ [] ∧
      ∀ c ∈ (Decimal.Layout.json.write x.value).toList, isCharacter c = true
    rw [htext]
    constructor
    · rw [hfirst]
      simp
    · intro c hc
      rcases List.mem_append.1 hc with hc | hc
      · split at hc
        · rw [List.mem_singleton.1 hc]
          rfl
        · cases hc
      · rcases hall c hc with hdigit | hmark
        · simp [isCharacter, hdigit]
        · simp only [isCharacter, Bool.or_eq_true, List.contains_iff_mem]
          exact Or.inr hmark

/-- A float is told from an integer by its point or its exponent. -/
theorem intText_ne_floatText (i : ℤ) (x : FiniteFloat) :
    (Number.int i).text ≠ (Number.float x).text := by
  intro he
  obtain ⟨-, hmark, -⟩ := Decimal.Layout.writeDecimal_chars
    (Decimal.shortest .toEven (binaryParts x.value).2.1 (binaryParts x.value).2.2)
  have htext : (Number.int i).text.toList = (Decimal.Layout.json.write x.value).toList :=
    congrArg String.toList he
  rw [Decimal.Layout.write_eq x.isFinite] at htext
  rcases hmark with hmark | hmark
  · have hmem := mem_intText (htext ▸ List.mem_append_right _ hmark)
    revert hmem
    decide
  · have hmem := mem_intText (htext ▸ List.mem_append_right _ hmark)
    revert hmem
    decide

/-- Different numbers have different texts. -/
theorem text_injective {n n' : Number} (h : n.text = n'.text) : n = n' := by
  cases n with
  | int i =>
    cases n' with
    | int i' => exact congrArg Number.int (intText_injective h)
    | float x => exact absurd h (intText_ne_floatText i x)
  | float x =>
    cases n' with
    | int i => exact absurd h.symm (intText_ne_floatText i x)
    | float x' =>
      obtain ⟨x, hx⟩ := x
      obtain ⟨x', hx'⟩ := x'
      cases Decimal.Layout.write_injective hx hx' h
      rfl

end Number

namespace Json

/-! ### Texts in quotes -/

/-- The value of a hexadecimal digit in lower case. -/
def hexValue (c : Char) : Nat := if c.isDigit then c.toNat - '0'.toNat else c.toNat - 'a'.toNat + 10

/-- A hexadecimal digit is read back. -/
theorem hexValue_hexDigit : ∀ n < 16, hexValue (hexDigit n) = n := by decide

/-- Reads one character inside quotes. -/
def unescape : List Char → Option (Char × List Char)
  | [] => none
  | '\\' :: 'b' :: rest => some ('\x08', rest)
  | '\\' :: 'f' :: rest => some ('\x0c', rest)
  | '\\' :: 'n' :: rest => some ('\n', rest)
  | '\\' :: 'r' :: rest => some ('\r', rest)
  | '\\' :: 't' :: rest => some ('\t', rest)
  | '\\' :: 'u' :: _ :: _ :: high :: low :: rest =>
    some (Char.ofNat (16 * hexValue high + hexValue low), rest)
  | '\\' :: c :: rest => some (c, rest)
  | c :: rest => some (c, rest)

/-- An escaped character is read back, whatever follows it. -/
theorem unescape_escape (c : Char) (rest : List Char) :
    unescape (escape c ++ rest) = some (c, rest) := by
  unfold escape
  split
  · rfl
  · rfl
  · rfl
  · rfl
  · rfl
  · rfl
  · rfl
  -- what has no escape of its own is written as a code if it is a control character, else as it is
  · rename_i hbackslash _ _ _ _ _
    split
    · rename_i hcontrol
      show some (Char.ofNat (16 * hexValue (hexDigit (c.toNat / 16)) +
        hexValue (hexDigit (c.toNat % 16))), rest) = _
      rw [hexValue_hexDigit _ (by omega), hexValue_hexDigit _ (by omega), Nat.div_add_mod,
        Char.ofNat_toNat]
    · show unescape (c :: rest) = _
      unfold unescape
      split <;> simp_all

/-- An escaped character begins with no quote. -/
theorem escape_append_ne_quote (c : Char) (rest rest' : List Char) :
    escape c ++ rest ≠ '"' :: rest' := by
  intro he
  have hread := unescape_escape c rest
  rw [he] at hread
  obtain ⟨rfl, -⟩ := Prod.mk.inj (Option.some.inj hread)
  cases he

/-- Inside quotes a text ends at the first quote that is not escaped. -/
theorem escaped_append_inj {text text' rest rest' : List Char}
    (h : text.flatMap escape ++ '"' :: rest = text'.flatMap escape ++ '"' :: rest') :
    text = text' ∧ rest = rest' := by
  induction text generalizing text' with
  | nil =>
    cases text' with
    | nil => exact ⟨rfl, (List.cons.inj h).2⟩
    | cons c' text' =>
      rw [List.flatMap_cons, List.append_assoc] at h
      exact absurd h.symm (escape_append_ne_quote c' _ _)
  | cons c text ih =>
    cases text' with
    | nil =>
      rw [List.flatMap_cons, List.append_assoc] at h
      exact absurd h (escape_append_ne_quote c _ _)
    | cons c' text' =>
      rw [List.flatMap_cons, List.append_assoc, List.flatMap_cons, List.append_assoc] at h
      -- the first characters are read off the same text
      have hread := congrArg unescape h
      rw [unescape_escape, unescape_escape] at hread
      obtain ⟨rfl, hrest⟩ := Prod.mk.inj (Option.some.inj hread)
      obtain ⟨rfl, hrest'⟩ := ih hrest
      exact ⟨rfl, hrest'⟩

/-- A quoted text ends where its closing quote stands, whatever follows it. -/
theorem quote_append_inj {s s' : String} {rest rest' : List Char}
    (h : (quote s).toList ++ rest = (quote s').toList ++ rest') : s = s' ∧ rest = rest' := by
  rw [quote, quote, String.toList_ofList, String.toList_ofList] at h
  simp only [List.cons_append, List.append_assoc, List.nil_append, List.cons.injEq,
    true_and] at h
  obtain ⟨htext, hrest⟩ := escaped_append_inj h
  exact ⟨String.toList_inj.1 htext, hrest⟩

/-! ### Values -/

/-- What may follow a value: nothing, or a character that is in no number. -/
def Follows (rest : List Char) : Prop := ∀ c ∈ rest.head?, Number.isCharacter c = false

theorem follows_nil : Follows [] := fun _ hc => by cases hc

/-- Whatever starts with a character that is in no number may follow a number. -/
theorem follows_cons {c : Char} (rest : List Char) (h : Number.isCharacter c = false) :
    Follows (c :: rest) := by
  intro c' hc'
  obtain rfl := Option.some.inj hc'
  exact h

/-- A number ends before the first character that is in no number. -/
theorem takeWhile_numberText (n : Number) {rest : List Char} (hrest : Follows rest) :
    (n.text.toList ++ rest).takeWhile Number.isCharacter = n.text.toList := by
  rw [List.takeWhile_append_of_pos n.text_characters.2]
  cases rest with
  | nil => simp
  | cons c rest => simp [hrest c rfl]

/-- The text of a number ends where the first character stands that is in no number. -/
theorem numberText_append_inj {n n' : Number} {rest rest' : List Char} (hrest : Follows rest)
    (hrest' : Follows rest') (h : n.text.toList ++ rest = n'.text.toList ++ rest') :
    n = n' ∧ rest = rest' := by
  have htext := congrArg (List.takeWhile Number.isCharacter) h
  rw [takeWhile_numberText n hrest, takeWhile_numberText n' hrest'] at htext
  obtain rfl := Number.text_injective (String.toList_inj.1 htext)
  exact ⟨rfl, List.append_cancel_left h⟩

/-- The type of the values that begin with a character. -/
def leadType : Char → String
  | 'n' => "null"
  | 't' | 'f' => "boolean"
  | '"' => "string"
  | '[' => "array"
  | '\x7b' => "object"
  | _ => "number"

/-- A value that starts with a character of a number is a number. -/
theorem leadType_of_isCharacter {c : Char} (h : Number.isCharacter c = true) :
    leadType c = "number" := by
  unfold leadType
  split <;> first | rfl | (revert h; decide)

/-- A value begins with a character of its type. -/
theorem exists_lead (j : Json) : ∃ c rest, (compact j).toList = c :: rest ∧
    leadType c = j.typeName ∧ c ≠ ']' := by
  cases j with
  | null => exact ⟨'n', _, rfl, rfl, by decide⟩
  | bool b =>
    cases b with
    | true => exact ⟨'t', _, rfl, rfl, by decide⟩
    | false => exact ⟨'f', _, rfl, rfl, by decide⟩
  | number n =>
    obtain ⟨hne, hall⟩ := n.text_characters
    obtain ⟨c, rest, htext⟩ := List.exists_cons_of_ne_nil hne
    have hc := hall c (htext ▸ List.mem_cons_self)
    refine ⟨c, rest, htext, leadType_of_isCharacter hc, ?_⟩
    rintro rfl
    cases hc
  | string s =>
    refine ⟨'"', s.toList.flatMap escape ++ ['"'], ?_, rfl, by decide⟩
    exact String.toList_ofList
  | array items =>
    refine ⟨'[', (",".intercalate (compactItems items)).toList ++ [']'], ?_, rfl, by decide⟩
    rw [compact, String.toList_append, String.toList_append]
    rfl
  | object members =>
    refine ⟨'\x7b', (",".intercalate (compactMembers members)).toList ++ ['\x7d'], ?_, rfl,
      by decide⟩
    rw [compact, String.toList_append, String.toList_append]
    rfl

/-- Values that begin the same text have the same type. -/
theorem typeName_eq_of_append {j j' : Json} {rest rest' : List Char}
    (h : (compact j).toList ++ rest = (compact j').toList ++ rest') :
    j.typeName = j'.typeName := by
  obtain ⟨c, tail, htext, htype, -⟩ := exists_lead j
  obtain ⟨c', tail', htext', htype', -⟩ := exists_lead j'
  rw [htext, htext'] at h
  rw [← htype, ← htype', (List.cons.inj h).1]

/-! ### Parts of lists and objects -/

/-- Parts that are set off by commas: a comma stands before each but the first. -/
theorem toList_intercalate_cons (first : String) (rest : List String) :
    (",".intercalate (first :: rest)).toList =
      first.toList ++ rest.flatMap fun part => ',' :: part.toList := by
  induction rest generalizing first with
  | nil => simp
  | cons second rest ih =>
    rw [String.intercalate_cons_cons, String.toList_append, String.toList_append, ih,
      List.flatMap_cons, List.append_assoc]
    rfl

/-- Parts behind commas end at a bracket, when each part can be cut off. -/
theorem parts_append_inj {α : Type} {part : α → String} {close : Char} (hclose : close ≠ ',')
    (hfollows : Number.isCharacter close = false) {parts parts' : List α}
    (hcut : ∀ x ∈ parts, ∀ x' rest rest', Follows rest → Follows rest' →
      (part x).toList ++ rest = (part x').toList ++ rest' → x = x' ∧ rest = rest')
    {rest rest' : List Char}
    (h : (parts.flatMap fun x => ',' :: (part x).toList) ++ close :: rest =
      (parts'.flatMap fun x => ',' :: (part x).toList) ++ close :: rest') :
    parts = parts' ∧ rest = rest' := by
  -- what follows a part is a comma or the bracket
  have hnext : ∀ (others : List α) (rest : List Char),
      Follows ((others.flatMap fun x => ',' :: (part x).toList) ++ close :: rest) := by
    intro others rest
    cases others with
    | nil => exact follows_cons rest hfollows
    | cons x others => exact follows_cons _ rfl
  induction parts generalizing parts' with
  | nil =>
    cases parts' with
    | nil => exact ⟨rfl, (List.cons.inj h).2⟩
    | cons x' parts' => exact absurd (List.cons.inj h).1 hclose
  | cons x parts ih =>
    cases parts' with
    | nil => exact absurd (List.cons.inj h).1.symm hclose
    | cons x' parts' =>
      obtain ⟨hx, hcut⟩ := List.forall_mem_cons.1 hcut
      simp only [List.flatMap_cons, List.cons_append, List.append_assoc, List.cons.injEq,
        true_and] at h
      obtain ⟨rfl, hothers⟩ := hx x' _ _ (hnext parts rest) (hnext parts' rest') h
      obtain ⟨rfl, hrest⟩ := ih hcut hothers
      exact ⟨rfl, hrest⟩

/-- Parts that are set off by commas end at a bracket with which no part begins. -/
theorem intercalate_append_inj {α : Type} {part : α → String} {close : Char} (hclose : close ≠ ',')
    (hfollows : Number.isCharacter close = false)
    (hlead : ∀ x, ∃ c rest, (part x).toList = c :: rest ∧ c ≠ close) {parts parts' : List α}
    (hcut : ∀ x ∈ parts, ∀ x' rest rest', Follows rest → Follows rest' →
      (part x).toList ++ rest = (part x').toList ++ rest' → x = x' ∧ rest = rest')
    {rest rest' : List Char}
    (h : (",".intercalate (parts.map part)).toList ++ close :: rest =
      (",".intercalate (parts'.map part)).toList ++ close :: rest') :
    parts = parts' ∧ rest = rest' := by
  have hempty : ∀ {x : α} {others : List α} {rest rest' : List Char},
      close :: rest ≠ (",".intercalate ((x :: others).map part)).toList ++ close :: rest' := by
    intro x others rest rest' he
    obtain ⟨c, tail, htext, hne⟩ := hlead x
    rw [List.map_cons, toList_intercalate_cons, htext] at he
    exact hne (List.cons.inj he).1.symm
  cases parts with
  | nil =>
    cases parts' with
    | nil => exact ⟨rfl, (List.cons.inj h).2⟩
    | cons x' parts' => exact absurd h hempty
  | cons x parts =>
    cases parts' with
    | nil => exact absurd h.symm hempty
    | cons x' parts' =>
      -- the first part is one behind a comma as well
      have htexts : ∀ (x : α) (others : List α),
          ((x :: others).flatMap fun x => ',' :: (part x).toList) =
            ',' :: (",".intercalate ((x :: others).map part)).toList := by
        intro x others
        rw [List.map_cons, toList_intercalate_cons, List.flatMap_cons, List.flatMap_map]
        rfl
      have hparts : ((x :: parts).flatMap fun x => ',' :: (part x).toList) ++ close :: rest =
          ((x' :: parts').flatMap fun x => ',' :: (part x).toList) ++ close :: rest' := by
        rw [htexts, htexts, List.cons_append, List.cons_append, h]
      exact parts_append_inj hclose hfollows hcut hparts

/-- The texts of items, one by one. -/
theorem compactItems_eq (items : List Json) : compactItems items = items.map compact := by
  induction items with
  | nil => rfl
  | cons j rest ih => rw [compactItems, ih, List.map_cons]

/-- The text of a member of an object. -/
def compactMember (member : String × Json) : String := quote member.1 ++ ":" ++ compact member.2

/-- The texts of members, one by one. -/
theorem compactMembers_eq (members : List (String × Json)) :
    compactMembers members = members.map compactMember := by
  induction members with
  | nil => rfl
  | cons member rest ih =>
    obtain ⟨key, j⟩ := member
    rw [compactMembers, ih, List.map_cons]
    rfl

/-- A member can be cut off when its value can. -/
theorem compactMember_append_inj {member member' : String × Json} {rest rest' : List Char}
    (hcut : (compact member.2).toList ++ rest = (compact member'.2).toList ++ rest' →
      member.2 = member'.2 ∧ rest = rest')
    (h : (compactMember member).toList ++ rest = (compactMember member').toList ++ rest') :
    member = member' ∧ rest = rest' := by
  unfold compactMember at h
  simp only [String.toList_append, List.append_assoc] at h
  obtain ⟨hkey, h⟩ := quote_append_inj h
  obtain ⟨hvalue, hrest⟩ := hcut (List.append_cancel_left h)
  exact ⟨Prod.ext hkey hvalue, hrest⟩

/-! ### All values -/

/-- Values that begin the same text are the same, and the same follows them. -/
theorem compact_append_inj {j j' : Json} {rest rest' : List Char} (hrest : Follows rest)
    (hrest' : Follows rest') (h : (compact j).toList ++ rest = (compact j').toList ++ rest') :
    j = j' ∧ rest = rest' := by
  -- by induction on the nesting
  induction hn : j.height using Nat.strongRecOn generalizing j j' rest rest' with
  | ind n ih =>
  subst hn
  have htype := typeName_eq_of_append h
  cases j with
  | null =>
    cases j' with
    | null => exact ⟨rfl, List.append_cancel_left h⟩
    | _ => simp [typeName] at htype
  | bool b =>
    cases j' with
    | bool b' =>
      cases b <;> cases b'
      · exact ⟨rfl, List.append_cancel_left h⟩
      · cases h
      · cases h
      · exact ⟨rfl, List.append_cancel_left h⟩
    | _ => simp [typeName] at htype
  | number n =>
    cases j' with
    | number n' =>
      obtain ⟨rfl, hrest⟩ := numberText_append_inj hrest hrest' h
      exact ⟨rfl, hrest⟩
    | _ => simp [typeName] at htype
  | string s =>
    cases j' with
    | string s' =>
      obtain ⟨rfl, hrest⟩ := quote_append_inj h
      exact ⟨rfl, hrest⟩
    | _ => simp [typeName] at htype
  | array items =>
    cases j' with
    | array items' =>
      simp only [compact, compactItems_eq, String.toList_append, List.append_assoc] at h
      have hlead : ∀ j : Json, ∃ c rest, (compact j).toList = c :: rest ∧ c ≠ ']' := by
        intro j
        obtain ⟨c, rest, htext, -, hne⟩ := exists_lead j
        exact ⟨c, rest, htext, hne⟩
      obtain ⟨rfl, hrest⟩ := intercalate_append_inj (by decide) rfl hlead
        (fun item hitem _ _ _ hnext hnext' htext =>
          ih _ (height_lt_of_mem hitem) hnext hnext' htext rfl)
        (List.append_cancel_left h)
      exact ⟨rfl, hrest⟩
    | _ => simp [typeName] at htype
  | object members =>
    cases j' with
    | object members' =>
      simp only [compact, compactMembers_eq, String.toList_append, List.append_assoc] at h
      have hlead : ∀ member : String × Json, ∃ c rest,
          (compactMember member).toList = c :: rest ∧ c ≠ '\x7d' := by
        intro member
        refine ⟨'"', member.1.toList.flatMap escape ++ ['"'] ++ ":".toList ++
          (compact member.2).toList, ?_, by decide⟩
        unfold compactMember quote
        simp only [String.toList_append, String.toList_ofList, List.cons_append]
      obtain ⟨rfl, hrest⟩ := intercalate_append_inj (by decide) rfl hlead
        (fun member hmember _ _ _ hnext hnext' htext => compactMember_append_inj
          (fun hvalue => ih _ (height_lt_of_mem_members hmember) hnext hnext' hvalue rfl) htext)
        (List.append_cancel_left h)
      exact ⟨rfl, hrest⟩
    | _ => simp [typeName] at htype

/-- Different values have different texts. -/
theorem compact_injective : Function.Injective compact := by
  intro j j' h
  have htext : (compact j).toList ++ [] = (compact j').toList ++ [] := by rw [h]
  exact (compact_append_inj follows_nil follows_nil htext).1

end Json

end BatchFlow
