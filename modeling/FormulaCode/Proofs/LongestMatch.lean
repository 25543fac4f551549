import FormulaCode.Proofs.Utf8

namespace FormulaCode.Element

variable {table : List Element} {e d : Element} {i : Nat} {error : TableError} {bs : List UInt8}

def bytes (e : Element) : List UInt8 := Text.bytes e.pattern.toList

def firstOfBytes? (table : List Element) (bs : List UInt8) : Option Element :=
  table.find? (·.bytes.isPrefixOf bs)

def firstIndex? (table : List Element) (text : List Char) : Option Nat :=
  table.findIdx? (·.starts text)

lemma starts_iff {text : List Char} : e.starts text = true ↔ e.bytes <+: Text.bytes text := by
  rw [starts, List.isPrefixOf_iff_prefix, bytes, Text.isPrefix_bytes_iff]

lemma first?_eq_firstOfBytes? (table : List Element) (text : List Char) :
    first? table text = firstOfBytes? table (Text.bytes text) := by
  rw [first?, firstOfBytes?]
  congr 1
  funext e
  rw [Bool.eq_iff_iff, starts_iff, List.isPrefixOf_iff_prefix]

/-- The entry at a place is not empty and is the first one that its own text starts with. -/
def Findable (table : List Element) (i : Nat) : Prop :=
  ∃ e, table[i]? = some e ∧ e.pattern ≠ "" ∧ firstIndex? table e.pattern.toList = some i

/-- The error about the entry at a place: an empty entry is named by its place, any other one by its text
and that of the first entry that it starts with, which stands before it. -/
def Blames (table : List Element) (i : Nat) (error : TableError) : Prop :=
  ∃ e, table[i]? = some e ∧ ((e.pattern = "" ∧ error = .emptyPattern i) ∨
    (e.pattern ≠ "" ∧ ∃ j d, j < i ∧ firstIndex? table e.pattern.toList = some j ∧ table[j]? = some d ∧
      error = .shadowed d.pattern e.pattern))

def fault? (table : List Element) (i : Nat) : Option TableError :=
  table[i]?.bind fun e =>
    if e.pattern.toList.isEmpty then some (.emptyPattern i)
    else (first? (table.take i) e.pattern.toList).map fun d => .shadowed d.pattern e.pattern

lemma starts_self (e : Element) : e.starts e.pattern.toList = true := by
  rw [starts, List.isPrefixOf_iff_prefix]

lemma exists_firstIndex? (h : table[i]? = some e) :
    ∃ j d, j ≤ i ∧ firstIndex? table e.pattern.toList = some j ∧ table[j]? = some d := by
  obtain ⟨hi, rfl⟩ := List.getElem?_eq_some_iff.1 h
  have hs : firstIndex? table table[i].pattern.toList = some _ :=
    List.findIdx?_eq_some_of_exists ⟨_, List.getElem_mem hi, starts_self _⟩
  obtain ⟨hj, -, hmin⟩ := List.findIdx?_eq_some_iff_getElem.1 hs
  exact ⟨_, _, Nat.le_of_not_lt fun hlt => hmin i hlt (starts_self _), hs, List.getElem?_eq_getElem hj⟩

lemma first?_take {text : List Char} {j : Nat} (hj : firstIndex? table text = some j)
    (hd : table[j]? = some d) : first? (table.take i) text = if j < i then some d else none := by
  have ht : (table.take i).findIdx? (·.starts text) = (firstIndex? table text).bind _ :=
    List.findIdx?_take
  rw [first?, List.find?_eq_bind_findIdx?_getElem?, ht, hj]
  by_cases h : j < i <;> simp [Option.guard, h, List.getElem?_take, hd]

lemma fault?_eq (h : table[i]? = some e) {j : Nat} (hj : firstIndex? table e.pattern.toList = some j)
    (hd : table[j]? = some d) :
    fault? table i = if e.pattern = "" then some (.emptyPattern i)
      else if j < i then some (.shadowed d.pattern e.pattern) else none := by
  rw [fault?, h, Option.bind_some, first?_take hj hd]
  simp only [List.isEmpty_iff, String.toList_eq_nil_iff]
  split_ifs <;> rfl

lemma fault?_eq_none_iff (h : table[i]? = some e) :
    fault? table i = none ↔ e.pattern ≠ "" ∧ firstIndex? table e.pattern.toList = some i := by
  obtain ⟨j, d, hle, hj, hd⟩ := exists_firstIndex? h
  rw [fault?_eq h hj hd, hj, Option.some_inj]
  split_ifs with hp hlt
  · simp [hp]
  · simp [hlt.ne]
  · simp [hp, hle.antisymm (Nat.le_of_not_lt hlt)]

lemma findable_iff (hi : i < table.length) : Findable table i ↔ fault? table i = none := by
  have he := List.getElem?_eq_getElem hi
  rw [fault?_eq_none_iff he]
  refine ⟨?_, fun h => ⟨_, he, h⟩⟩
  rintro ⟨e, he', h⟩
  cases he.symm.trans he'
  exact h

lemma blames_of_fault? (h : fault? table i = some error) : Blames table i error := by
  cases he : table[i]? with
  | none => simp [fault?, he] at h
  | some e =>
    obtain ⟨j, d, hle, hj, hd⟩ := exists_firstIndex? he
    rw [fault?_eq he hj hd] at h
    refine ⟨e, he, ?_⟩
    split_ifs at h with hp hlt
    · exact .inl ⟨hp, (Option.some.inj h).symm⟩
    · exact .inr ⟨hp, j, d, hlt, hj, hd, (Option.some.inj h).symm⟩

lemma checkAfter_cons (earlier rest : List Element) (e : Element) :
    checkAfter earlier (e :: rest) = match fault? (earlier ++ e :: rest) earlier.length with
      | some error => .error error
      | none => checkAfter (earlier ++ [e]) rest := by
  rw [fault?, checkAfter, List.getElem?_append_right le_rfl, Nat.sub_self, List.take_left]
  simp only [List.getElem?_cons_zero, Option.bind_some]
  split_ifs
  · rfl
  · cases first? earlier e.pattern.toList <;> rfl

lemma checkAfter_cases (earlier rest : List Element) :
    (checkAfter earlier rest = .ok () ∧ ∀ i, earlier.length ≤ i → fault? (earlier ++ rest) i = none) ∨
      ∃ i error, checkAfter earlier rest = .error error ∧ fault? (earlier ++ rest) i = some error ∧
        ∀ j, earlier.length ≤ j → j < i → fault? (earlier ++ rest) j = none := by
  induction rest generalizing earlier with
  | nil => exact .inl ⟨rfl, fun i hi => by simp [fault?, hi]⟩
  | cons e rest ih =>
    rw [checkAfter_cons]
    cases hf : fault? (earlier ++ e :: rest) earlier.length with
    | some error => exact .inr ⟨_, error, rfl, hf, fun j hj hlt => absurd hj hlt.not_ge⟩
    | none =>
      have hi := ih (earlier ++ [e])
      rw [List.append_assoc, List.singleton_append, List.length_append, List.length_singleton] at hi
      -- the entry that was just checked is the only one before those of the hypothesis
      have hnext {j : Nat} (hj : earlier.length ≤ j) : j = earlier.length ∨ earlier.length + 1 ≤ j := by
        omega
      obtain ⟨hok, hnone⟩ | ⟨i, error, herr, hi, hnone⟩ := hi
      · exact .inl ⟨hok, fun j hj => (hnext hj).elim (· ▸ hf) (hnone j)⟩
      · exact .inr ⟨i, error, herr, hi, fun j hj hlt => (hnext hj).elim (· ▸ hf) (hnone j · hlt)⟩

lemma checkTable_cases (table : List Element) :
    (checkTable table = .ok () ∧ ∀ i, fault? table i = none) ∨
      ∃ i error, checkTable table = .error error ∧ fault? table i = some error ∧
        ∀ j < i, fault? table j = none := by
  rcases checkAfter_cases [] table with ⟨hok, hnone⟩ | ⟨i, error, herr, hi, hnone⟩
  · exact .inl ⟨hok, fun i => hnone i i.zero_le⟩
  · exact .inr ⟨i, error, herr, hi, fun j => hnone j j.zero_le⟩

lemma checkTable_eq_ok_iff : checkTable table = .ok () ↔ ∀ i, fault? table i = none := by
  rcases checkTable_cases table with ⟨hok, hnone⟩ | ⟨i, error, herr, hi, -⟩
  · exact iff_of_true hok hnone
  · refine iff_of_false (by simp [herr]) fun h => ?_
    rw [h i] at hi
    cases hi

lemma checkTable_eq_error (h : checkTable table = .error error) :
    ∃ i, fault? table i = some error ∧ ∀ j < i, fault? table j = none := by
  rcases checkTable_cases table with ⟨hok, -⟩ | ⟨i, error', herr, hi, hnone⟩
  · rw [hok] at h
    cases h
  · rw [herr] at h
    cases h
    exact ⟨i, hi, hnone⟩

lemma checkTable_eq_ok_iff_findable : checkTable table = .ok () ↔
    (∀ e ∈ table, e.pattern ≠ "") ∧
      ∀ i e, table[i]? = some e → firstIndex? table e.pattern.toList = some i := by
  rw [checkTable_eq_ok_iff]
  constructor
  · intro h
    have hnone {i : Nat} {e : Element} (he : table[i]? = some e) := (fault?_eq_none_iff he).1 (h i)
    refine ⟨fun e he => ?_, fun i e he => (hnone he).2⟩
    obtain ⟨i, hi⟩ := List.mem_iff_getElem?.1 he
    exact (hnone hi).1
  · rintro ⟨hp, hf⟩ i
    cases he : table[i]? with
    | none => simp [fault?, he]
    | some e => exact (fault?_eq_none_iff he).2 ⟨hp e (List.mem_of_getElem? he), hf i e he⟩

/-- An entry that bytes start with, while every other such entry is shorter. -/
def IsLongest (table : List Element) (bs : List UInt8) (e : Element) : Prop :=
  e ∈ table ∧ e.bytes <+: bs ∧
    ∀ d ∈ table, d.bytes <+: bs → d ≠ e → d.bytes.length < e.bytes.length

lemma IsLongest.unique (he : IsLongest table bs e) (hd : IsLongest table bs d) : e = d := by
  by_contra h
  have hlt := he.2.2 d hd.1 hd.2.1 (Ne.symm h)
  exact hlt.asymm (hd.2.2 e he.1 he.2.1 h)

lemma isLongest_of_firstOfBytes? (h : ∀ i, fault? table i = none)
    (hf : firstOfBytes? table bs = some e) : IsLongest table bs e := by
  obtain ⟨hp, i, hi, rfl, hmin⟩ := List.find?_eq_some_iff_getElem.1 hf
  have hpre := List.isPrefixOf_iff_prefix.1 hp
  refine ⟨List.getElem_mem hi, hpre, fun d hd hdp hne => ?_⟩
  obtain ⟨j, hj, rfl⟩ := List.getElem_of_mem hd
  have hij : i < j := by
    refine lt_of_le_of_ne (Nat.le_of_not_lt fun hlt => ?_) fun hij => hne (by simp only [hij])
    simpa [List.isPrefixOf_iff_prefix.2 hdp] using hmin j hlt
  by_contra hlen
  -- both start the same bytes, so the earlier entry starts the later one, which then is not found
  have hshort := List.prefix_of_prefix_length_le hpre hdp (Nat.le_of_not_lt hlen)
  obtain ⟨-, hfirst⟩ := (fault?_eq_none_iff (List.getElem?_eq_getElem hj)).1 (h j)
  obtain ⟨_, -, hnone⟩ := List.findIdx?_eq_some_iff_getElem.1 hfirst
  exact hnone i hij (starts_iff.2 hshort)

lemma firstOfBytes?_eq_none_iff :
    firstOfBytes? table bs = none ↔ ∀ e ∈ table, ¬ e.bytes <+: bs := by
  rw [firstOfBytes?, List.find?_eq_none]
  simp only [List.isPrefixOf_iff_prefix]

lemma firstOfBytes?_eq_some_iff (h : ∀ i, fault? table i = none) :
    firstOfBytes? table bs = some e ↔ IsLongest table bs e := by
  refine ⟨isLongest_of_firstOfBytes? h, fun he => ?_⟩
  cases hf : firstOfBytes? table bs with
  | none => exact absurd he.2.1 (firstOfBytes?_eq_none_iff.1 hf e he.1)
  | some d => rw [(isLongest_of_firstOfBytes? h hf).unique he]

/-- The check passes if and only if no entry is empty and each is the first one that its own text starts
with. Then the first entry that bytes start with is their longest one, and none is found only if there is
none. An error is about the first entry that is empty or not found by its own text. -/
theorem checkTable_classifies (table : List Element) :
    (checkTable table = .ok () ↔ (∀ e ∈ table, e.pattern ≠ "") ∧
      ∀ i e, table[i]? = some e → firstIndex? table e.pattern.toList = some i) ∧
    (checkTable table = .ok () → ∀ bs : List UInt8,
      (∀ e, firstOfBytes? table bs = some e ↔ IsLongest table bs e) ∧
        (firstOfBytes? table bs = none ↔ ∀ e ∈ table, ¬ e.bytes <+: bs)) ∧
    (∀ text : List Char, first? table text = firstOfBytes? table (Text.bytes text)) ∧
    ∀ error, checkTable table = .error error →
      ∃ i, IsLeast {i | i < table.length ∧ ¬ Findable table i} i ∧ Blames table i error := by
  refine ⟨checkTable_eq_ok_iff_findable, fun h bs => ?_, first?_eq_firstOfBytes? table, fun error h => ?_⟩
  · exact ⟨fun e => firstOfBytes?_eq_some_iff (checkTable_eq_ok_iff.1 h), firstOfBytes?_eq_none_iff⟩
  · obtain ⟨i, hi, hnone⟩ := checkTable_eq_error h
    obtain ⟨e, he, hb⟩ := blames_of_fault? hi
    obtain ⟨hlt, -⟩ := List.getElem?_eq_some_iff.1 he
    refine ⟨i, ⟨⟨hlt, ?_⟩, fun j hj => ?_⟩, e, he, hb⟩
    · simp [findable_iff hlt, hi]
    · exact Nat.le_of_not_lt fun hji => hj.2 ((findable_iff hj.1).2 (hnone j hji))

theorem checkTable_classifies_square :
    let longFirst := [function "SQRT" (.unary .sqrt), function "SQR" (.unary .sqrt)]
    let shortFirst := [function "SQR" (.unary .sqrt), function "SQRT" (.unary .sqrt)]
    checkTable longFirst = .ok () ∧
      IsLongest longFirst (Text.bytes "SQRT2".toList) (function "SQRT" (.unary .sqrt)) ∧
      checkTable shortFirst = .error (.shadowed "SQR" "SQRT") ∧
      ∃ i, IsLeast {i | i < shortFirst.length ∧ ¬ Findable shortFirst i} i ∧
        Blames shortFirst i (.shadowed "SQR" "SQRT") := by
  intro longFirst shortFirst
  have hok : checkTable longFirst = .ok () := by decide
  have herr : checkTable shortFirst = .error (.shadowed "SQR" "SQRT") := by decide
  have hfirst : firstOfBytes? longFirst (Text.bytes "SQRT2".toList) =
      some (function "SQRT" (.unary .sqrt)) := by decide
  exact ⟨hok, (((checkTable_classifies longFirst).2.1 hok _).1 _).1 hfirst, herr,
    (checkTable_classifies shortFirst).2.2.2 _ herr⟩

end FormulaCode.Element
