import IncludeGraph.Proofs.Json.Number
import IncludeGraph.Proofs.Json.Strings

/-!
# Reading written values

The text of a value is read back as the value, however deep it is nested and however it is
laid out over lines.  What is written for a part is read from the start of any text that
follows it, so that the parts of an array or object are read one after another.
-/

namespace IncludeGraph.Json

/-- Every number of a value is a number literal. -/
inductive HasNumbers : Json → Prop
  | null : HasNumbers null
  | bool (value : Bool) : HasNumbers (bool value)
  | number {literal : String} (h : IsNumber literal.toList) : HasNumbers (number literal)
  | string (text : Option String) : HasNumbers (string text)
  | array {items : List Json} (h : ∀ item ∈ items, HasNumbers item) : HasNumbers (array items)
  | object {members : List (Option String × Json)} (h : ∀ member ∈ members, HasNumbers member.2) :
      HasNumbers (object members)

/-! ## White space -/

theorem skipSpace_cons {c : Char} (hc : isSpace c = false) (text : List Char) :
    skipSpace (c :: text) = c :: text :=
  List.dropWhile_cons_of_neg (by simp [hc])

theorem skipSpace_newline_append (depth : Nat) (text : List Char) :
    skipSpace (newline depth ++ text) = skipSpace text := by
  apply List.dropWhile_append_of_pos
  simp [newline, isSpace]

theorem parseValue_eq_of_skipSpace_eq {text other : List Char}
    (h : skipSpace text = skipSpace other) (fuel : Nat) :
    parseValue fuel text = parseValue fuel other := by
  cases fuel with
  | zero => rfl
  | succ fuel => rw [parseValue, parseValue, h]

/-- The first character of a number starts no other kind of value. -/
theorem ne_of_minus_or_isDigit {c other : Char} (hc : c = '-' ∨ Text.isDigit c = true)
    (hminus : '-' ≠ other) (hdigit : Text.isDigit other = false) : c ≠ other := by
  rcases hc with rfl | hc
  · exact hminus
  · rintro rfl
    rw [hc] at hdigit
    cases hdigit

theorem isSpace_of_minus_or_isDigit {c : Char} (hc : c = '-' ∨ Text.isDigit c = true) :
    isSpace c = false := by
  have hne : ∀ {other}, '-' ≠ other → Text.isDigit other = false → c ≠ other :=
    ne_of_minus_or_isDigit hc
  have hspace : c ≠ ' ' := hne (by decide) (by decide)
  have hfeed : c ≠ '\n' := hne (by decide) (by decide)
  have htab : c ≠ '\t' := hne (by decide) (by decide)
  have hreturn : c ≠ '\r' := hne (by decide) (by decide)
  simp [isSpace, hspace, hfeed, htab, hreturn]

/-- The text of a value starts with a character that is neither white space nor the end of a
list. -/
theorem HasNumbers.exists_cons_write {value : Json} (h : HasNumbers value) (depth : Nat) :
    ∃ c text, write depth value = c :: text ∧ isSpace c = false ∧ c ≠ ']' := by
  cases h with
  | null => exact ⟨'n', _, rfl, rfl, by decide⟩
  | bool value => cases value <;> exact ⟨_, _, rfl, rfl, by decide⟩
  | @number literal h =>
      obtain ⟨c, text, heq, hc⟩ := h.exists_cons
      exact ⟨c, text, by rw [write, heq], isSpace_of_minus_or_isDigit hc,
        ne_of_minus_or_isDigit hc (by decide) (by decide)⟩
  | string text =>
      obtain ⟨body, hbody, _⟩ := exists_literal_append text []
      exact ⟨'"', body, by rw [write, ← hbody, List.append_nil], rfl, by decide⟩
  | @array items _ => cases items <;> exact ⟨'[', _, rfl, rfl, by decide⟩
  | @object members _ => cases members <;> exact ⟨openBrace, _, rfl, rfl, by decide⟩

theorem skipSpace_write_append {value : Json} (h : HasNumbers value) (depth : Nat)
    (rest : List Char) : skipSpace (write depth value ++ rest) = write depth value ++ rest := by
  obtain ⟨c, text, heq, hspace, _⟩ := h.exists_cons_write depth
  rw [heq]
  exact skipSpace_cons hspace _

theorem skipSpace_newline_write_append {value : Json} (h : HasNumbers value) (depth : Nat)
    (rest : List Char) :
    skipSpace (newline depth ++ (write depth value ++ rest)) = write depth value ++ rest :=
  (skipSpace_newline_append depth _).trans (skipSpace_write_append h depth rest)

theorem skipSpace_space_write_append {value : Json} (h : HasNumbers value) (depth : Nat)
    (rest : List Char) :
    skipSpace (' ' :: (write depth value ++ rest)) = write depth value ++ rest :=
  (List.dropWhile_cons_of_pos rfl).trans (skipSpace_write_append h depth rest)

theorem skipSpace_literal_append (text : Option String) (rest : List Char) :
    skipSpace (literal text ++ rest) = literal text ++ rest := by
  obtain ⟨body, hbody, _⟩ := exists_literal_append text rest
  rw [hbody]
  exact skipSpace_cons rfl body

theorem literal_append_ne_closeBrace {text : Option String} {rest more : List Char} :
    literal text ++ rest ≠ closeBrace :: more := by
  obtain ⟨body, hbody, _⟩ := exists_literal_append text rest
  rw [hbody]
  exact fun heq => absurd (List.cons.inj heq).1 (by decide)

theorem skipSpace_newline_literal_append (depth : Nat) (text : Option String) (rest : List Char) :
    skipSpace (newline depth ++ (literal text ++ rest)) = literal text ++ rest :=
  (skipSpace_newline_append depth _).trans (skipSpace_literal_append text rest)

/-! ## Parts of a value -/

/-- The text of a value is read from the start of any text that does not continue it. -/
def ReadsBack (value : Json) : Prop :=
  ∀ depth fuel rest, (write depth value).length ≤ fuel → StartsWithout Continues rest →
    parseValue fuel (write depth value ++ rest) = some (value, rest)

theorem startsWithout_writeItems (depth outer : Nat) (items : List Json) (rest : List Char) :
    StartsWithout Continues (writeItems depth items ++ (newline outer ++ rest)) := by
  cases items <;> rintro c hc <;> cases hc <;> simp [Continues] <;> decide

theorem startsWithout_writeMembers (depth outer : Nat) (members : List (Option String × Json))
    (rest : List Char) :
    StartsWithout Continues (writeMembers depth members ++ (newline outer ++ rest)) := by
  cases members <;> rintro c hc <;> cases hc <;> simp [Continues] <;> decide

/-- White space before a value does not matter. -/
theorem ReadsBack.parseValue_eq {value : Json} (h : ReadsBack value) (hnumbers : HasNumbers value)
    {depth fuel : Nat} {text rest : List Char}
    (htext : skipSpace text = write depth value ++ rest)
    (hfuel : (write depth value).length ≤ fuel) (hrest : StartsWithout Continues rest) :
    parseValue fuel text = some (value, rest) := by
  rw [parseValue_eq_of_skipSpace_eq
    (htext.trans (skipSpace_write_append hnumbers depth rest).symm)]
  exact h depth fuel rest hfuel hrest

/-! ## Arrays -/

/-- An item is read, and what follows it decides how to go on. -/
theorem parseItems_eq {item : Json} (h : ReadsBack item) (hnumbers : HasNumbers item)
    {depth fuel : Nat} {text rest : List Char}
    (htext : skipSpace text = write depth item ++ rest)
    (hfuel : (write depth item).length < fuel) (hrest : StartsWithout Continues rest)
    (before : Array Json) :
    parseItems fuel before text =
      match skipSpace rest with
      | ',' :: rest => parseItems (fuel - 1) (before.push item) rest
      | ']' :: rest => some (array (before.push item).toList, rest)
      | _ => none := by
  obtain ⟨fuel, rfl⟩ := Nat.exists_eq_succ_of_ne_zero (Nat.ne_zero_of_lt hfuel)
  rw [parseItems, h.parseValue_eq hnumbers htext (Nat.le_of_lt_succ hfuel) hrest]
  rfl

/-- The items of an array are read up to its closing bracket. -/
theorem parseItems_write {item : Json} {items : List Json}
    (hnumbers : ∀ other ∈ item :: items, HasNumbers other)
    (hitems : ∀ other ∈ item :: items, ReadsBack other) {depth outer fuel : Nat}
    {text rest : List Char} (before : Array Json)
    (htext : skipSpace text =
      write depth item ++ (writeItems depth items ++ (newline outer ++ ']' :: rest)))
    (hfuel : (write depth item).length + (writeItems depth items).length < fuel) :
    parseItems fuel before text = some (array (before.toList ++ item :: items), rest) := by
  induction items generalizing item fuel text before with
  | nil =>
      rw [parseItems_eq (hitems item List.mem_cons_self) (hnumbers item List.mem_cons_self) htext
        (Nat.lt_of_le_of_lt (Nat.le_add_right _ _) hfuel)
        (startsWithout_writeItems depth outer _ _)]
      simp [writeItems, skipSpace_newline_append, skipSpace_cons (c := ']') rfl]
  | cons next items ih =>
      rw [parseItems_eq (hitems item List.mem_cons_self) (hnumbers item List.mem_cons_self) htext
        (Nat.lt_of_le_of_lt (Nat.le_add_right _ _) hfuel)
        (startsWithout_writeItems depth outer _ _)]
      have hnext := skipSpace_newline_write_append
        (hnumbers next (List.mem_cons_of_mem _ List.mem_cons_self)) depth
        (writeItems depth items ++ (newline outer ++ ']' :: rest))
      simp only [writeItems, List.cons_append, List.append_assoc, List.length_cons,
        List.length_append] at hfuel ⊢
      rw [skipSpace_cons (c := ',') rfl]
      have hremaining :
          (write depth next).length + (writeItems depth items).length < fuel - 1 := by omega
      simpa using ih (fun other hother => hnumbers other (List.mem_cons_of_mem _ hother))
        (fun other hother => hitems other (List.mem_cons_of_mem _ hother)) (before.push item) hnext
        hremaining

/-! ## Objects -/

/-- A member is read, and what follows it decides how to go on. -/
theorem parseMembers_eq {key : Option String} {value : Json} (h : ReadsBack value)
    (hnumbers : HasNumbers value) {depth fuel : Nat} {text rest : List Char}
    (htext : skipSpace text = literal key ++ ':' :: ' ' :: (write depth value ++ rest))
    (hfuel : (write depth value).length < fuel) (hrest : StartsWithout Continues rest)
    (before : Array (Option String × Json)) :
    parseMembers fuel before text =
      match skipSpace rest with
      | ',' :: rest => parseMembers (fuel - 1) (before.push (key, value)) rest
      | '\x7d' :: rest => some (object (before.push (key, value)).toList, rest)
      | _ => none := by
  obtain ⟨fuel, rfl⟩ := Nat.exists_eq_succ_of_ne_zero (Nat.ne_zero_of_lt hfuel)
  obtain ⟨body, hbody, hkey⟩ :=
    exists_literal_append key (':' :: ' ' :: (write depth value ++ rest))
  have hvalue := h.parseValue_eq hnumbers
    (skipSpace_space_write_append hnumbers depth rest) (Nat.le_of_lt_succ hfuel) hrest
  rw [parseMembers, htext, hbody]
  simp only [hkey, skipSpace_cons (c := ':') rfl, hvalue]
  rfl

/-- The members of an object are read up to its closing brace. -/
theorem parseMembers_write {key : Option String} {value : Json}
    {members : List (Option String × Json)}
    (hnumbers : ∀ member ∈ (key, value) :: members, HasNumbers member.2)
    (hmembers : ∀ member ∈ (key, value) :: members, ReadsBack member.2) {depth outer fuel : Nat}
    {text rest : List Char} (before : Array (Option String × Json))
    (htext : skipSpace text = literal key ++ ':' :: ' ' :: (write depth value ++
      (writeMembers depth members ++ (newline outer ++ closeBrace :: rest))))
    (hfuel : (write depth value).length + (writeMembers depth members).length < fuel) :
    parseMembers fuel before text =
      some (object (before.toList ++ (key, value) :: members), rest) := by
  induction members generalizing key value fuel text before with
  | nil =>
      rw [parseMembers_eq (hmembers _ List.mem_cons_self) (hnumbers _ List.mem_cons_self) htext
        (Nat.lt_of_le_of_lt (Nat.le_add_right _ _) hfuel)
        (startsWithout_writeMembers depth outer _ _)]
      simp [writeMembers, skipSpace_newline_append, closeBrace, skipSpace_cons (c := '\x7d') rfl]
  | cons next members ih =>
      obtain ⟨nextKey, nextValue⟩ := next
      rw [parseMembers_eq (hmembers _ List.mem_cons_self) (hnumbers _ List.mem_cons_self) htext
        (Nat.lt_of_le_of_lt (Nat.le_add_right _ _) hfuel)
        (startsWithout_writeMembers depth outer _ _)]
      have hnext := skipSpace_newline_literal_append depth nextKey (':' :: ' ' ::
        (write depth nextValue ++ (writeMembers depth members ++
          (newline outer ++ closeBrace :: rest))))
      simp only [writeMembers, List.cons_append, List.nil_append, List.append_assoc,
        List.length_cons, List.length_append] at hfuel ⊢
      rw [skipSpace_cons (c := ',') rfl]
      have hremaining :
          (write depth nextValue).length + (writeMembers depth members).length < fuel - 1 := by
        omega
      simpa using ih (fun other hother => hnumbers other (List.mem_cons_of_mem _ hother))
        (fun other hother => hmembers other (List.mem_cons_of_mem _ hother))
        (before.push (key, value)) hnext hremaining

/-! ## Whole values -/

theorem parseValue_array {text : List Char} (htext : ∀ more, skipSpace text ≠ ']' :: more)
    (fuel : Nat) : parseValue (fuel + 1) ('[' :: text) = parseItems fuel #[] (skipSpace text) := by
  rw [parseValue, skipSpace_cons rfl]
  -- the overlap with the empty array is excluded by the hypothesis
  simp

theorem parseValue_object {text : List Char} (htext : ∀ more, skipSpace text ≠ closeBrace :: more)
    (fuel : Nat) :
    parseValue (fuel + 1) (openBrace :: text) = parseMembers fuel #[] (skipSpace text) := by
  rw [closeBrace] at htext
  rw [parseValue, skipSpace_cons rfl]
  simp [openBrace]

theorem parseValue_number {literal rest : List Char} (h : IsNumber literal)
    (hrest : StartsWithout Continues rest) (fuel : Nat) :
    parseValue (fuel + 1) (literal ++ rest) = some (number (String.ofList literal), rest) := by
  have hread := parseNumber_append h hrest
  obtain ⟨c, text, rfl, hc⟩ := h.exists_cons
  have hne : ∀ {other}, '-' ≠ other → Text.isDigit other = false → c ≠ other :=
    ne_of_minus_or_isDigit hc
  have hquote : c ≠ '"' := hne (by decide) (by decide)
  have hbracket : c ≠ '[' := hne (by decide) (by decide)
  have hbrace : c ≠ '\x7b' := hne (by decide) (by decide)
  have htrue : c ≠ 't' := hne (by decide) (by decide)
  have hfalse : c ≠ 'f' := hne (by decide) (by decide)
  have hnull : c ≠ 'n' := hne (by decide) (by decide)
  rw [List.cons_append] at hread ⊢
  rw [parseValue, skipSpace_cons (isSpace_of_minus_or_isDigit hc)]
  simp [hbrace, htrue, hfalse, hnull, hread]

/-- Some fuel is left for what a value holds. -/
theorem HasNumbers.readsBack_of_succ {value : Json} (hnumbers : HasNumbers value)
    (h : ∀ depth fuel rest, (write depth value).length ≤ fuel + 1 →
      StartsWithout Continues rest →
        parseValue (fuel + 1) (write depth value ++ rest) = some (value, rest)) :
    ReadsBack value := by
  intro depth fuel rest hfuel hrest
  cases fuel with
  | zero =>
      obtain ⟨c, text, heq, _⟩ := hnumbers.exists_cons_write depth
      rw [heq] at hfuel
      cases hfuel
  | succ fuel => exact h depth fuel rest hfuel hrest

/-- An array is read if its items are. -/
theorem readsBack_array {items : List Json} (hnumbers : ∀ item ∈ items, HasNumbers item)
    (hitems : ∀ item ∈ items, ReadsBack item) : ReadsBack (array items) := by
  refine (HasNumbers.array hnumbers).readsBack_of_succ fun depth fuel rest hfuel _ => ?_
  cases items with
  | nil => rfl
  | cons item items =>
      have hitem := hnumbers item List.mem_cons_self
      obtain ⟨c, text, heq, _, hc⟩ := hitem.exists_cons_write (depth + 1)
      have hstart := skipSpace_newline_write_append hitem (depth + 1)
        (writeItems (depth + 1) items ++ (newline depth ++ ']' :: rest))
      simp only [write, List.cons_append, List.append_assoc, List.nil_append, List.length_cons,
        List.length_append, List.length_nil] at hfuel ⊢
      have hremaining : (write (depth + 1) item).length +
          (writeItems (depth + 1) items).length < fuel := by omega
      rw [parseValue_array, hstart]
      · exact parseItems_write hnumbers hitems #[] (skipSpace_write_append hitem (depth + 1) _)
          hremaining
      · intro more hmore
        rw [hstart, heq] at hmore
        exact hc (List.cons.inj hmore).1

/-- An object is read if the values of its members are. -/
theorem readsBack_object {members : List (Option String × Json)}
    (hnumbers : ∀ member ∈ members, HasNumbers member.2)
    (hmembers : ∀ member ∈ members, ReadsBack member.2) : ReadsBack (object members) := by
  refine (HasNumbers.object hnumbers).readsBack_of_succ fun depth fuel rest hfuel _ => ?_
  cases members with
  | nil => rfl
  | cons member members =>
      obtain ⟨key, value⟩ := member
      have hstart := skipSpace_newline_literal_append (depth + 1) key (':' :: ' ' ::
        (write (depth + 1) value ++ (writeMembers (depth + 1) members ++
          (newline depth ++ closeBrace :: rest))))
      simp only [write, List.cons_append, List.append_assoc, List.nil_append, List.length_cons,
        List.length_append, List.length_nil] at hfuel ⊢
      have hremaining : (write (depth + 1) value).length +
          (writeMembers (depth + 1) members).length < fuel := by omega
      rw [parseValue_object, hstart]
      · exact parseMembers_write hnumbers hmembers #[] (skipSpace_literal_append key _) hremaining
      · intro more hmore
        rw [hstart] at hmore
        exact literal_append_ne_closeBrace hmore

/-- Every value is read from the start of any text that does not continue it. -/
theorem HasNumbers.readsBack {value : Json} (h : HasNumbers value) : ReadsBack value := by
  induction h with
  | null => exact HasNumbers.null.readsBack_of_succ fun _ _ _ _ _ => rfl
  | bool value =>
      refine (HasNumbers.bool value).readsBack_of_succ fun _ _ _ _ _ => ?_
      cases value <;> rfl
  | number h =>
      refine (HasNumbers.number h).readsBack_of_succ fun depth fuel rest _ hrest => ?_
      rw [write, parseValue_number h hrest, String.ofList_toList]
  | string text =>
      refine (HasNumbers.string text).readsBack_of_succ fun depth fuel rest _ _ => ?_
      obtain ⟨body, hbody, hread⟩ := exists_literal_append text rest
      rw [write, hbody, parseValue, skipSpace_cons rfl]
      simp [hread]
  | array h ih => exact readsBack_array h ih
  | object h ih => exact readsBack_object h ih

/-- The text of a value is read back as the value. -/
theorem parse_pretty {value : Json} (h : HasNumbers value) : parse (pretty value) = some value := by
  have hfuel : (write 0 value).length ≤ 2 * (write 0 value).length + 2 := by omega
  have hread := h.readsBack 0 _ [] hfuel fun _ hc => by cases hc
  rw [List.append_nil] at hread
  rw [parse, pretty, String.toList_ofList, String.length_ofList, hread]
  rfl

end IncludeGraph.Json
