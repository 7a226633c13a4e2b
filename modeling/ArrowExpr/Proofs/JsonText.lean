import ArrowExpr.Json.Reader
import ArrowExpr.Proofs.NumberText
/-!
# JSON text reads back

Written without blanks, a document reads back as it was (`ofText?_write`), if its strings are texts
and its numbers are numbers (`Readable`). Each piece is read in front of any text that does not go on
with it: the characters of a string (`readUnits_escape`), strings (`readString_escaped`), numbers
(`readNumber_append`) and documents (`Readable.reads`).
-/

namespace ArrowExpr.Json

/-! ## Definitions -/

/-- Numbers are numbers, and strings are texts. -/
inductive Readable : Json → Prop where
  | null : Readable null
  | bool (b : Bool) : Readable (bool b)
  | number {text : List Char} : (∀ c ∈ text, isNumberChar c) → (Number.ofText? text).isSome →
      Readable (number text)
  | str (text : String) : Readable (str (some text))
  | array {items : List Json} : (∀ item ∈ items, Readable item) → Readable (array items)
  | object {members : List (Option String × Json)} : (∀ member ∈ members, member.1.isSome) →
      (∀ member ∈ members, Readable member.2) → Readable (object members)

/-- The text of the document is read, whatever follows it, if the number of its characters is within
the bound on tokens. -/
def Reads (json : Json) : Prop :=
  ∀ fuel rest, json.write.toList.length ≤ fuel → Stops isNumberChar rest →
    readValue fuel (json.write.toList ++ rest) = some (json, rest)

/-! ## Strings -/

theorem joinUnits_code {unit : Nat} (small : unit < 0xD800) (units : List StringUnit) :
    joinUnits (.code unit :: units) = (joinUnits units).map (Char.ofNat unit :: ·) := by
  have notHigh : isHighSurrogate unit = false := by
    simp [isHighSurrogate, Nat.not_le.mpr small]
  have notLow : isLowSurrogate unit = false := by
    simp only [isLowSurrogate, Bool.and_eq_false_iff, decide_eq_false_iff_not]
    exact .inl (by omega)
  cases units with
  | nil => simp [joinUnits, notHigh, notLow]
  | cons next rest => cases next <;> simp [joinUnits, notHigh, notLow]

theorem hex?_hexDigits {n : Nat} (small : n < 0x20) :
    hex? '0' '0' (Nat.digitChar (n / 16)) (Nat.digitChar (n % 16)) = some n := by
  have all : ∀ n < 0x20,
      hex? '0' '0' (Nat.digitChar (n / 16)) (Nat.digitChar (n % 16)) = some n := by decide
  exact all n small

theorem readUnits_plain {c : Char} (notQuote : c ≠ '"') (notBackslash : c ≠ '\\')
    (notControl : 0x20 ≤ c.toNat) {rest left : List Char} {units : List StringUnit}
    (read : readUnits rest = some (units, left)) :
    readUnits (c :: rest) = some (.char c :: units, left) := by
  rw [readUnits.eq_def]
  split
  next same => cases same
  next same => exact absurd (List.cons.inj same).1 notQuote
  next same => exact absurd (List.cons.inj same).1 notBackslash
  next same => exact absurd (List.cons.inj same).1 notBackslash
  next same =>
    obtain ⟨rfl, rfl⟩ := List.cons.inj same
    simp [notControl, read]

/-- An escaped character is one piece of a string, and that piece stands for the character. -/
theorem readUnits_escape (c : Char) :
    ∃ unit, (∀ {rest left units}, readUnits rest = some (units, left) →
        readUnits (escape c ++ rest) = some (unit :: units, left)) ∧
      ∀ units, joinUnits (unit :: units) = (joinUnits units).map (c :: ·) := by
  unfold escape
  split
  · exact ⟨.char '"', fun read => by simp [readUnits, unescape?, read], fun _ => rfl⟩
  · exact ⟨.char '\\', fun read => by simp [readUnits, unescape?, read], fun _ => rfl⟩
  · exact ⟨.char '\n', fun read => by simp [readUnits, unescape?, read], fun _ => rfl⟩
  · exact ⟨.char '\t', fun read => by simp [readUnits, unescape?, read], fun _ => rfl⟩
  · exact ⟨.char '\r', fun read => by simp [readUnits, unescape?, read], fun _ => rfl⟩
  · exact ⟨.char '\x08', fun read => by simp [readUnits, unescape?, read], fun _ => rfl⟩
  · exact ⟨.char '\x0c', fun read => by simp [readUnits, unescape?, read], fun _ => rfl⟩
  next notQuote notBackslash _ _ _ _ _ =>
    split
    next control =>
      refine ⟨.code c.toNat, fun read => ?_, fun units => ?_⟩
      · simp [readUnits, hexDigits, hex?_hexDigits control, read]
      · rw [joinUnits_code (by omega), Char.ofNat_toNat]
    next notControl =>
      exact ⟨.char c, readUnits_plain notQuote notBackslash (Nat.not_lt.mp notControl),
        fun _ => rfl⟩

theorem readString_escaped (text : String) (rest : List Char) :
    readString (Quoted.escaped escape text.toList ++ '"' :: rest) = some (some text, rest) := by
  suffices pieces : ∃ units, readUnits (Quoted.escaped escape text.toList ++ '"' :: rest) =
      some (units, rest) ∧ joinUnits units = some text.toList by
    obtain ⟨units, read, joined⟩ := pieces
    simp [readString, read, joined]
  induction text.toList with
  | nil => exact ⟨[], by simp [Quoted.escaped, readUnits], rfl⟩
  | cons c others ih =>
    obtain ⟨units, read, joined⟩ := ih
    obtain ⟨unit, readFirst, joinFirst⟩ := readUnits_escape c
    refine ⟨unit :: units, ?_, by rw [joinFirst, joined, Option.map_some]⟩
    rw [Quoted.escaped, List.flatMap_cons, List.append_assoc]
    exact readFirst read

/-! ## Numbers -/

theorem readNumber_append {text : List Char} (inside : ∀ c ∈ text, isNumberChar c)
    (number : (Number.ofText? text).isSome) {rest : List Char} (stops : Stops isNumberChar rest) :
    readNumber (text ++ rest) = some (.number text, rest) := by
  obtain ⟨n, read⟩ := Option.isSome_iff_exists.mp number
  obtain ⟨before, behind⟩ := span_append inside rest stops
  simp only [readNumber, before, behind, read]

/-! ## Documents -/

theorem skipBlanks_cons {c : Char} (notBlank : isBlank c = false) (rest : List Char) :
    skipBlanks (c :: rest) = c :: rest := by
  simp [skipBlanks, notBlank]

theorem writeAll_eq_map (items : List Json) : writeAll items = items.map write := by
  induction items with
  | nil => rfl
  | cons item rest ih => rw [writeAll, ih, List.map_cons]

/-- The text of a member. -/
def memberText (member : Option String × Json) : List Char :=
  (quoted member.1).toList ++ ':' :: member.2.write.toList

theorem writeMembers_eq_map (members : List (Option String × Json)) :
    (writeMembers members).map String.toList = members.map memberText := by
  induction members with
  | nil => rfl
  | cons member rest ih =>
    obtain ⟨key, value⟩ := member
    rw [writeMembers, List.map_cons, ih, List.map_cons]
    simp [memberText]

theorem toList_write_array (items : List Json) :
    (write (array items)).toList =
      '[' :: ([','].intercalate (items.map (·.write.toList)) ++ [']']) := by
  simp [write, writeAll_eq_map, String.toList_intercalate, Function.comp_def]

theorem toList_write_object (members : List (Option String × Json)) :
    (write (object members)).toList =
      '\x7b' :: ([','].intercalate (members.map memberText) ++ ['\x7d']) := by
  simp [write, String.toList_intercalate, writeMembers_eq_map]

theorem toList_quoted (text : String) :
    (quoted (some text)).toList = '"' :: (Quoted.escaped escape text.toList ++ ['"']) :=
  String.toList_ofList

theorem Readable.exists_number_eq_cons {text : List Char} (inside : ∀ c ∈ text, isNumberChar c)
    (number : (Number.ofText? text).isSome) :
    ∃ c rest, text = c :: rest ∧ isNumberChar c := by
  cases text with
  | nil => cases number
  | cons c rest => exact ⟨c, rest, rfl, inside c List.mem_cons_self⟩

theorem isBlank_of_isNumberChar {c : Char} (isNumber : isNumberChar c) : isBlank c = false := by
  rw [Bool.eq_false_iff]
  intro blank
  simp only [isBlank, Bool.or_eq_true, beq_iff_eq] at blank
  rcases blank with ((rfl | rfl) | rfl) | rfl <;> cases isNumber

/-- No document starts with a blank or the end of an array. -/
theorem Readable.exists_write_eq_cons {json : Json} (readable : Readable json) :
    ∃ c rest, json.write.toList = c :: rest ∧ isBlank c = false ∧ c ≠ ']' := by
  cases readable with
  | null => exact ⟨'n', _, rfl, by decide⟩
  | bool b => cases b <;> exact ⟨_, _, rfl, by decide⟩
  | number inside number =>
    obtain ⟨c, rest, rfl, isNumber⟩ := exists_number_eq_cons inside number
    refine ⟨c, rest, String.toList_ofList, isBlank_of_isNumberChar isNumber, ?_⟩
    rintro rfl
    cases isNumber
  | str text => exact ⟨'"', _, toList_quoted text, by decide⟩
  | array => exact ⟨'[', _, toList_write_array _, by decide⟩
  | object => exact ⟨'\x7b', _, toList_write_object _, by decide⟩

theorem readValue_number {c : Char} (isNumber : isNumberChar c) (fuel : Nat) (rest : List Char) :
    readValue (fuel + 1) (c :: rest) = readNumber (c :: rest) := by
  have other {d : Char} {more : List Char} (same : c :: rest = d :: more)
      (notNumber : isNumberChar d = false) : False := by
    rw [(List.cons.inj same).1, notNumber] at isNumber
    cases isNumber
  rw [readValue, skipBlanks_cons (isBlank_of_isNumberChar isNumber)]
  split
  next same => exact (other same (by decide)).elim
  next same => exact (other same (by decide)).elim
  next same => exact (other same (by decide)).elim
  next same => exact (other same (by decide)).elim
  next same => exact (other same (by decide)).elim
  next same => exact (other same (by decide)).elim
  next => rfl

theorem readValue_str (text : String) (fuel : Nat) (rest : List Char) :
    readValue (fuel + 1) ((quoted (some text)).toList ++ rest) = some (.str (some text), rest) := by
  rw [toList_quoted, List.cons_append, List.append_assoc, List.singleton_append, readValue,
    skipBlanks_cons (by decide)]
  simp [readString_escaped]

/-! ## Arrays -/

/-- The items of an array with a comma between them. -/
def itemsText (items : List Json) : List Char := [','].intercalate (items.map (·.write.toList))

theorem itemsText_cons_cons (first second : Json) (items : List Json) :
    itemsText (first :: second :: items) =
      first.write.toList ++ ',' :: itemsText (second :: items) := by
  simp [itemsText, List.intercalate_cons_cons]

theorem itemsText_singleton (item : Json) : itemsText [item] = item.write.toList := by
  simp [itemsText]

section

variable {fuel : Nat} {text more rest : List Char} {item : Json} {items : List Json}

theorem readItems_last (read : readValue fuel text = some (item, ']' :: rest)) :
    readItems (fuel + 1) text = some ([item], rest) := by
  have closing : skipBlanks (']' :: rest) = ']' :: rest := skipBlanks_cons (by decide) rest
  simp [readItems, read, closing]

theorem readItems_cons (read : readValue fuel text = some (item, ',' :: more))
    (later : readItems fuel more = some (items, rest)) :
    readItems (fuel + 1) text = some (item :: items, rest) := by
  have comma : skipBlanks (',' :: more) = ',' :: more := skipBlanks_cons (by decide) more
  simp [readItems, read, comma, later]

end

/-- Items are read one after the other, up to the bracket that closes their array. -/
theorem readItems_append {first : Json} {items : List Json} (reads : first.Reads)
    (others : ∀ item ∈ items, item.Reads) {fuel : Nat} {rest : List Char}
    (enough : (itemsText (first :: items)).length < fuel) :
    readItems fuel (itemsText (first :: items) ++ ']' :: rest) = some (first :: items, rest) := by
  induction items generalizing first fuel with
  | nil =>
    cases fuel with
    | zero => cases enough
    | succ fuel =>
      rw [itemsText_singleton] at enough ⊢
      exact readItems_last
        (reads fuel _ (Nat.le_of_lt_succ enough) (stops_cons (by decide) rest))
  | cons second items ih =>
    cases fuel with
    | zero => cases enough
    | succ fuel =>
      rw [List.forall_mem_cons] at others
      rw [itemsText_cons_cons, List.length_append, List.length_cons] at enough
      rw [itemsText_cons_cons, List.append_assoc, List.cons_append]
      exact readItems_cons (reads fuel _ (by omega) (stops_cons (by decide) _))
        (ih others.1 others.2 (by omega))

theorem readValue_array_nil (fuel : Nat) (rest : List Char) :
    readValue (fuel + 1) ('[' :: ']' :: rest) = some (array [], rest) := by
  have opening : skipBlanks ('[' :: ']' :: rest) = '[' :: ']' :: rest :=
    skipBlanks_cons (by decide) _
  have closing : skipBlanks (']' :: rest) = ']' :: rest := skipBlanks_cons (by decide) rest
  simp [readValue, opening, closing]

theorem readValue_array {fuel : Nat} {c : Char} {text rest : List Char} {items : List Json}
    (notBlank : isBlank c = false) (notClose : c ≠ ']')
    (read : readItems fuel (c :: text) = some (items, rest)) :
    readValue (fuel + 1) ('[' :: c :: text) = some (array items, rest) := by
  have opening : skipBlanks ('[' :: c :: text) = '[' :: c :: text := skipBlanks_cons (by decide) _
  have first : skipBlanks (c :: text) = c :: text := skipBlanks_cons notBlank text
  simp [readValue, opening, first, notClose, read]

/-! ## Objects -/

/-- The members of an object with a comma between them. -/
def membersText (members : List (Option String × Json)) : List Char :=
  [','].intercalate (members.map memberText)

theorem membersText_cons_cons (first second : Option String × Json)
    (members : List (Option String × Json)) :
    membersText (first :: second :: members) =
      memberText first ++ ',' :: membersText (second :: members) := by
  simp [membersText, List.intercalate_cons_cons]

theorem membersText_singleton (member : Option String × Json) :
    membersText [member] = memberText member := by
  simp [membersText]

theorem memberText_append (key : String) (value : Json) (rest : List Char) :
    memberText (some key, value) ++ rest =
      '"' :: (Quoted.escaped escape key.toList ++
        '"' :: ':' :: (value.write.toList ++ rest)) := by
  simp [memberText, toList_quoted]

section

variable {fuel : Nat} {key : String} {text more rest : List Char} {value : Json}
  {members : List (Option String × Json)}

theorem readMembers_last (read : readValue fuel text = some (value, '\x7d' :: rest)) :
    readMembers (fuel + 1) ('"' :: (Quoted.escaped escape key.toList ++ '"' :: ':' :: text)) =
      some ([(some key, value)], rest) := by
  have opening (text : List Char) : skipBlanks ('"' :: text) = '"' :: text :=
    skipBlanks_cons (by decide) text
  have colon : skipBlanks (':' :: text) = ':' :: text := skipBlanks_cons (by decide) text
  have closing : skipBlanks ('\x7d' :: rest) = '\x7d' :: rest := skipBlanks_cons (by decide) rest
  simp [readMembers, opening, readString_escaped, colon, read, closing]

theorem readMembers_cons (read : readValue fuel text = some (value, ',' :: more))
    (later : readMembers fuel more = some (members, rest)) :
    readMembers (fuel + 1) ('"' :: (Quoted.escaped escape key.toList ++ '"' :: ':' :: text)) =
      some ((some key, value) :: members, rest) := by
  have opening (text : List Char) : skipBlanks ('"' :: text) = '"' :: text :=
    skipBlanks_cons (by decide) text
  have colon : skipBlanks (':' :: text) = ':' :: text := skipBlanks_cons (by decide) text
  have comma : skipBlanks (',' :: more) = ',' :: more := skipBlanks_cons (by decide) more
  simp [readMembers, opening, readString_escaped, colon, read, comma, later]

end

/-- Members are read one after the other, up to the brace that closes their object. -/
theorem readMembers_append {first : Option String × Json} {members : List (Option String × Json)}
    (named : first.1.isSome) (keys : ∀ member ∈ members, member.1.isSome) (reads : first.2.Reads)
    (others : ∀ member ∈ members, member.2.Reads) {fuel : Nat} {rest : List Char}
    (enough : (membersText (first :: members)).length < fuel) :
    readMembers fuel (membersText (first :: members) ++ '\x7d' :: rest) =
      some (first :: members, rest) := by
  induction members generalizing first fuel with
  | nil =>
    cases fuel with
    | zero => cases enough
    | succ fuel =>
      obtain ⟨key?, value⟩ := first
      obtain ⟨key, rfl⟩ := Option.isSome_iff_exists.mp named
      rw [membersText_singleton] at enough ⊢
      have small : value.write.toList.length ≤ fuel := by
        simp only [memberText, List.length_append, List.length_cons] at enough
        omega
      rw [memberText_append]
      exact readMembers_last (reads fuel _ small (stops_cons (by decide) rest))
  | cons second members ih =>
    cases fuel with
    | zero => cases enough
    | succ fuel =>
      rw [List.forall_mem_cons] at keys others
      obtain ⟨key?, value⟩ := first
      obtain ⟨key, rfl⟩ := Option.isSome_iff_exists.mp named
      rw [membersText_cons_cons] at enough ⊢
      simp only [memberText, List.length_append, List.length_cons] at enough
      have small : value.write.toList.length ≤ fuel := by omega
      rw [List.append_assoc, List.cons_append, memberText_append]
      exact readMembers_cons (reads fuel _ small (stops_cons (by decide) _))
        (ih keys.1 keys.2 others.1 others.2 (by omega))

theorem readValue_object_nil (fuel : Nat) (rest : List Char) :
    readValue (fuel + 1) ('\x7b' :: '\x7d' :: rest) = some (object [], rest) := by
  have opening : skipBlanks ('\x7b' :: '\x7d' :: rest) = '\x7b' :: '\x7d' :: rest :=
    skipBlanks_cons (by decide) _
  have closing : skipBlanks ('\x7d' :: rest) = '\x7d' :: rest := skipBlanks_cons (by decide) rest
  simp [readValue, opening, closing]

theorem readValue_object {fuel : Nat} {text rest : List Char}
    {members : List (Option String × Json)}
    (read : readMembers fuel ('"' :: text) = some (members, rest)) :
    readValue (fuel + 1) ('\x7b' :: '"' :: text) = some (object members, rest) := by
  have opening : skipBlanks ('\x7b' :: '"' :: text) = '\x7b' :: '"' :: text :=
    skipBlanks_cons (by decide) _
  have first : skipBlanks ('"' :: text) = '"' :: text := skipBlanks_cons (by decide) text
  simp [readValue, opening, first, read]

/-! ## Whole documents -/

/-- A document has at least one character, so there is fuel for its own token. -/
theorem Readable.reads_of_succ {json : Json} (readable : Readable json)
    (reads : ∀ fuel rest, json.write.toList.length ≤ fuel + 1 → Stops isNumberChar rest →
      readValue (fuel + 1) (json.write.toList ++ rest) = some (json, rest)) : json.Reads := by
  intro fuel rest enough stops
  cases fuel with
  | zero =>
    obtain ⟨c, others, start, _⟩ := readable.exists_write_eq_cons
    rw [start] at enough
    cases enough
  | succ fuel => exact reads fuel rest enough stops

theorem Readable.exists_itemsText_eq_cons {first : Json} (readable : Readable first)
    (items : List Json) :
    ∃ c text, itemsText (first :: items) = c :: text ∧ isBlank c = false ∧ c ≠ ']' := by
  obtain ⟨c, others, start, notBlank, notClose⟩ := readable.exists_write_eq_cons
  cases items with
  | nil => exact ⟨c, others, by rw [itemsText_singleton, start], notBlank, notClose⟩
  | cons second items =>
    exact ⟨c, _, by rw [itemsText_cons_cons, start, List.cons_append], notBlank, notClose⟩

theorem exists_membersText_eq_cons {first : Option String × Json} (named : first.1.isSome)
    (members : List (Option String × Json)) :
    ∃ text, membersText (first :: members) = '"' :: text := by
  obtain ⟨key?, value⟩ := first
  obtain ⟨key, rfl⟩ := Option.isSome_iff_exists.mp named
  have start := memberText_append key value []
  rw [List.append_nil] at start
  cases members with
  | nil => exact ⟨_, by rw [membersText_singleton, start]⟩
  | cons second members => exact ⟨_, by rw [membersText_cons_cons, start, List.cons_append]⟩

theorem reads_array {items : List Json} (readables : ∀ item ∈ items, Readable item)
    (reads : ∀ item ∈ items, item.Reads) : (array items).Reads := by
  refine Readable.reads_of_succ (.array readables) fun fuel rest enough _ => ?_
  have text : (array items).write.toList = '[' :: (itemsText items ++ [']']) :=
    toList_write_array items
  rw [text] at enough ⊢
  rw [List.cons_append, List.append_assoc, List.singleton_append]
  cases items with
  | nil => exact readValue_array_nil fuel rest
  | cons first items =>
    rw [List.forall_mem_cons] at reads
    have small : (itemsText (first :: items)).length < fuel := by
      simp only [List.length_cons, List.length_append, List.length_nil] at enough
      omega
    have read : readItems fuel (itemsText (first :: items) ++ ']' :: rest) = _ :=
      readItems_append reads.1 reads.2 small
    obtain ⟨c, others, start, notBlank, notClose⟩ :=
      (readables first List.mem_cons_self).exists_itemsText_eq_cons items
    rw [start, List.cons_append] at read ⊢
    exact readValue_array notBlank notClose read

theorem reads_object {members : List (Option String × Json)}
    (keys : ∀ member ∈ members, member.1.isSome)
    (readables : ∀ member ∈ members, Readable member.2)
    (reads : ∀ member ∈ members, member.2.Reads) : (object members).Reads := by
  refine Readable.reads_of_succ (.object keys readables) fun fuel rest enough _ => ?_
  have text : (object members).write.toList = '\x7b' :: (membersText members ++ ['\x7d']) :=
    toList_write_object members
  rw [text] at enough ⊢
  rw [List.cons_append, List.append_assoc, List.singleton_append]
  cases members with
  | nil => exact readValue_object_nil fuel rest
  | cons first members =>
    rw [List.forall_mem_cons] at keys reads
    have small : (membersText (first :: members)).length < fuel := by
      simp only [List.length_cons, List.length_append, List.length_nil] at enough
      omega
    have read : readMembers fuel (membersText (first :: members) ++ '\x7d' :: rest) = _ :=
      readMembers_append keys.1 keys.2 reads.1 reads.2 small
    obtain ⟨others, start⟩ := exists_membersText_eq_cons keys.1 members
    rw [start, List.cons_append] at read ⊢
    exact readValue_object read

/-- A document is read in front of any text that no number goes on with. -/
theorem Readable.reads {json : Json} (readable : Readable json) : json.Reads := by
  induction readable with
  | null =>
    refine Readable.reads_of_succ .null fun fuel rest _ _ => ?_
    show readValue (fuel + 1) ('n' :: 'u' :: 'l' :: 'l' :: rest) = some (Json.null, rest)
    rw [readValue, skipBlanks_cons (by decide)]
    rfl
  | bool b =>
    refine Readable.reads_of_succ (.bool b) fun fuel rest _ _ => ?_
    cases b with
    | true =>
      show readValue (fuel + 1) ('t' :: 'r' :: 'u' :: 'e' :: rest) = some (Json.bool true, rest)
      rw [readValue, skipBlanks_cons (by decide)]
      rfl
    | false =>
      show readValue (fuel + 1) ('f' :: 'a' :: 'l' :: 's' :: 'e' :: rest) =
        some (Json.bool false, rest)
      rw [readValue, skipBlanks_cons (by decide)]
      rfl
  | @number text inside isNumber =>
    refine Readable.reads_of_succ (.number inside isNumber) fun fuel rest _ stops => ?_
    have read := readNumber_append inside isNumber stops
    obtain ⟨c, others, rfl, isNumberChar⟩ := exists_number_eq_cons inside isNumber
    rw [write, String.toList_ofList]
    exact (readValue_number isNumberChar fuel _).trans read
  | str text => exact Readable.reads_of_succ (.str text) fun fuel rest _ _ =>
      readValue_str text fuel rest
  | array readables reads => exact reads_array readables reads
  | object keys readables reads => exact reads_object keys readables reads

/-- The text of a document is read as that document. -/
theorem ofText?_write {json : Json} (readable : Readable json) :
    ofText? json.write = some json := by
  have read := readable.reads (json.write.toList.length + 1) [] (Nat.le_succ _) nofun
  rw [List.append_nil] at read
  simp [ofText?, read, skipBlanks]

end ArrowExpr.Json
