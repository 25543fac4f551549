import FormulaCode.Proofs.Boundaries
import FormulaCode.Proofs.LongestMatch

/-! Whatever calls a scanner has had, its next token stands on boundaries of characters right behind blanks,
and where there is none it stays. Without jumps, tokens and blanks make up the text. -/

namespace FormulaCode

namespace Token

variable {position p : Nat} {text rest : List Char} {t : Token}

def startOfBytes? (position : Nat) (bs : List UInt8) : Option Token :=
  match Element.firstOfBytes? Element.table bs with
  | some e => some ⟨e, 0, position, e.bytes.length⟩
  | none => match bs with
    | [] => none
    | b :: _ => if Text.isUpper (Text.ofByte b) then some ⟨.fetch, b - 65, position, 1⟩ else none

lemma index_of_isUpper {b : UInt8} (h : Text.isUpper (Text.ofByte b) = true) :
    UInt8.ofNat ((Text.ofByte b).toNat - 'A'.toNat) = b - 65 := by
  simp only [Text.isUpper, Bool.and_eq_true, decide_eq_true_eq] at h
  have hle : 65 ≤ (Text.ofByte b).val.toNat := h.1
  have hA : 'A'.toNat = 65 := by decide
  rw [Text.val_ofByte] at hle
  apply UInt8.toNat_inj.1
  rw [UInt8.toNat_ofNat', UInt8.toNat_sub_of_le b 65 hle, hA, Char.toNat, Text.val_ofByte]
  exact Nat.mod_eq_of_lt ((Nat.sub_le ..).trans_lt b.toNat_lt)

lemma start?_eq_startOfBytes? (position : Nat) (text : List Char) :
    start? position text = startOfBytes? position (Text.bytes text) := by
  rw [start?.eq_def, startOfBytes?.eq_def, Element.first?_eq_firstOfBytes?]
  cases hf : Element.firstOfBytes? Element.table (Text.bytes text) with
  | some e =>
    have he := (text_of_table e (List.mem_of_find?_eq_some hf)).2
    have ha := Text.byteLength_of_ascii (Text.ascii_of_all (fun c hc => by simpa using hc) he)
    have hl : e.bytes.length = e.pattern.toList.length := (Text.length_bytes _).trans ha
    simp only [hl]
  | none =>
    cases text with
    | nil => rfl
    | cons c cs =>
      obtain ⟨b, bs, hb⟩ := List.exists_cons_of_ne_nil (String.utf8EncodeChar_ne_nil (c := c))
      rw [Text.bytes_cons, hb, List.cons_append]
      simp only [Text.class_first Text.isUpper_le hb]
      split
      · rename_i hu
        obtain ⟨rfl, -⟩ := (Text.first_utf8EncodeChar hb).resolve_right fun hr =>
          hr.1 (Text.isUpper_le c hu)
        rw [index_of_isUpper hu]
      · rfl

lemma startOfBytes?_of_le {b : UInt8} (hb : 128 ≤ b.toNat) (position : Nat) (bs : List UInt8) :
    startOfBytes? position (b :: bs) = none := by
  have hf : Element.firstOfBytes? Element.table (b :: bs) = none := by
    refine Element.firstOfBytes?_eq_none_iff.2 fun e he hp => ?_
    obtain ⟨c, cs, hc⟩ := List.exists_cons_of_ne_nil (Element.table_pattern_ne_nil e he)
    obtain ⟨d, ds, hd⟩ := List.exists_cons_of_ne_nil (String.utf8EncodeChar_ne_nil (c := c))
    have hle : c.val ≤ 127 := by
      have ha := (text_of_table e he).2
      rw [hc] at ha
      simpa using (List.all_eq_true.1 ha) c List.mem_cons_self
    obtain ⟨rfl, -⟩ := (Text.first_utf8EncodeChar hd).resolve_right fun hr => hr.1 hle
    rw [Element.bytes, hc, Text.bytes_cons, hd, List.cons_append, List.cons_prefix_cons] at hp
    have hlt : (Text.ofByte d).val.toNat ≤ 127 := hle
    rw [Text.val_ofByte, hp.1] at hlt
    omega
  simp [startOfBytes?, hf, Text.class_ofByte Text.isUpper_le hb]

lemma word_of_start? (h : start? position text = some t) :
    (t.element ∈ Element.table ∧ t.text = t.element.pattern.toList) ∨
      (t.element = .fetch ∧ t.index.toNat < 26 ∧ t.text = [Char.ofNat ('A'.toNat + t.index.toNat)]) := by
  rw [start?.eq_def] at h
  split at h
  · rename_i e he
    cases h
    have hm := List.mem_of_find?_eq_some he
    exact .inl ⟨hm, if_neg (by simpa using (text_of_table e hm).1)⟩
  · split at h
    · cases h
    · rename_i c cs _
      obtain ⟨hu, h⟩ := Option.ite_none_right_eq_some.1 h
      cases h
      simp only [Text.isUpper, Bool.and_eq_true, decide_eq_true_eq] at hu
      have hle : c.toNat ≤ 90 := hu.2
      have hA : 'A'.toNat = 65 := by decide
      refine .inr ⟨rfl, ?_, rfl⟩
      rw [UInt8.toNat_ofNat', hA]
      omega

end Token

namespace Scanner

variable {s s' : Scanner} {t : Token} {e : CompileError} {answer : Except CompileError (Option Token)}

inductive Answers : Scanner → Except CompileError (Option Token) → Scanner → Prop
  | inside {text : List Char} {p : Nat} (h : Text.dropBytes? p text = none) :
    Answers ⟨text, p⟩ (.error ⟨.unknownToken, p⟩) ⟨text, p⟩
  | finish {before blanks : List Char} (hb : ∀ c ∈ blanks, Text.isBlank c = true) :
    Answers ⟨before ++ blanks, Text.byteLength before⟩ (.ok none)
      ⟨before ++ blanks, Text.byteLength (before ++ blanks)⟩
  | unknown {before blanks here : List Char} (hb : ∀ c ∈ blanks, Text.isBlank c = true)
    (hne : here ≠ []) (hsolid : here.takeWhile Text.isBlank = [])
    (hs : Token.start? (Text.byteLength (before ++ blanks)) here = none) :
    Answers ⟨before ++ blanks ++ here, Text.byteLength before⟩
      (.error ⟨.unknownToken, Text.byteLength (before ++ blanks)⟩)
      ⟨before ++ blanks ++ here, Text.byteLength (before ++ blanks)⟩
  | token {before blanks here : List Char} {t : Token} (hb : ∀ c ∈ blanks, Text.isBlank c = true)
    (hs : Token.start? (Text.byteLength (before ++ blanks)) here = some t) :
    Answers ⟨before ++ blanks ++ here, Text.byteLength before⟩ (.ok (some t))
      ⟨before ++ blanks ++ here, t.position + t.length⟩

lemma answers_next (s : Scanner) : Answers s s.next.1 s.next.2 := by
  obtain ⟨text, p⟩ := s
  cases hd : Text.dropBytes? p text with
  | none =>
    simp only [next, hd]
    exact .inside hd
  | some rest =>
    obtain ⟨before, rfl, rfl⟩ := Text.exists_of_dropBytes? hd
    have hb : ∀ c ∈ rest.takeWhile Text.isBlank, Text.isBlank c = true := fun c => List.mem_takeWhile_imp
    have hsplit : before ++ rest = before ++ rest.takeWhile Text.isBlank ++ rest.dropWhile Text.isBlank := by
      rw [List.append_assoc, List.takeWhile_append_dropWhile]
    have hpos : Text.byteLength before + (rest.takeWhile Text.isBlank).length =
        Text.byteLength (before ++ rest.takeWhile Text.isBlank) := by
      rw [Text.byteLength_append, Lexeme.byteLength_blanks]
    cases hf : Token.find (Text.byteLength before) rest with
    | finish p =>
      obtain ⟨rfl, hblank⟩ := Token.blank_of_find_finish hf
      simp only [next, hd, hf]
      rw [← Text.byteLength_of_blank hblank, ← Text.byteLength_append]
      exact .finish hblank
    | unknown p =>
      obtain ⟨hne, rfl, hs⟩ := Token.start?_of_find_unknown hf
      simp only [next, hd, hf]
      rw [hpos] at hs ⊢
      rw [hsplit]
      exact .unknown hb hne (List.takeWhile_eq_nil_iff.2 (List.dropWhile_get_zero_not _ rest)) hs
    | token t here =>
      obtain ⟨hs, -, rfl⟩ := Token.start?_of_find hf
      simp only [next, hd, hf]
      rw [hpos] at hs
      rw [hsplit]
      exact .token hb hs

structure Yields (s : Scanner) (t : Token) (s' : Scanner) : Prop where
  split : ∃ before blanks rest, s.text = before ++ blanks ++ t.text ++ rest ∧
    s.position = Text.byteLength before ∧ (∀ c ∈ blanks, Text.isBlank c = true) ∧
      t.position = Text.byteLength (before ++ blanks)
  slice : Text.slice? s.text t.position t.length = some t.text
  word : (t.element ∈ Element.table ∧ t.text = t.element.pattern.toList) ∨
    (t.element = .fetch ∧ t.index.toNat < 26 ∧ t.text = [Char.ofNat ('A'.toNat + t.index.toNat)])
  after : s'.position = t.position + t.length
  advances : s.position < s'.position

namespace Answers

lemma text_eq (h : Answers s answer s') : s'.text = s.text := by
  cases h <;> rfl

lemma position_le (h : Answers s answer s') (hs : s.position ≤ Text.byteLength s.text) :
    s'.position ≤ Text.byteLength s'.text := by
  cases h with
  | inside => exact hs
  | finish => exact le_rfl
  | unknown =>
    simp only [Text.byteLength_append]
    omega
  | token hb ht =>
    obtain ⟨hp, hl, ha, after, rfl⟩ := Token.start?_text ht
    simp only [hp, hl, ← Text.byteLength_of_ascii ha, Text.byteLength_append]
    omega

lemma yields (h : Answers s (.ok (some t)) s') : s.Yields t s' := by
  cases h with
  | @token before blanks here t hb hs =>
    obtain ⟨hp, hl, ha, after, rfl⟩ := Token.start?_text hs
    have hpos := Token.start?_length_pos hs
    refine ⟨⟨before, blanks, after, ?_, rfl, hb, hp⟩, ?_, Token.word_of_start? hs, rfl, ?_⟩
    · rw [List.append_assoc _ t.text]
    · rw [hp, hl, ← Text.byteLength_of_ascii ha, Text.slice?_append]
    · rw [hp, Text.byteLength_append]
      dsimp only
      omega

lemma again (h : Answers s (.error e) s') : e = ⟨.unknownToken, s'.position⟩ ∧ s'.next = (.error e, s') := by
  cases h with
  | inside h => exact ⟨rfl, by simp only [next, h]⟩
  | unknown hb hne hsolid hs =>
    refine ⟨rfl, ?_⟩
    simp only [next, Text.dropBytes?_append, Token.find_of_none hsolid hne hs]

lemma blank (h : Answers s (.ok none) s') : s'.position = Text.byteLength s.text ∧
    ∃ rest, Text.dropBytes? s.position s.text = some rest ∧ ∀ c ∈ rest, Text.isBlank c = true := by
  cases h with
  | @finish before blanks hb => exact ⟨rfl, blanks, Text.dropBytes?_append .., hb⟩

end Answers

inductive Call
  | next
  | seek (position : Nat)

def call (s : Scanner) : Call → Scanner
  | .next => s.next.2
  | .seek position => s.seek position

lemma text_call (s : Scanner) (c : Call) : (s.call c).text = s.text := by
  cases c with
  | next => exact s.answers_next.text_eq
  | seek position => rfl

lemma position_call_le (hs : s.position ≤ Text.byteLength s.text) (c : Call) :
    (s.call c).position ≤ Text.byteLength (s.call c).text := by
  cases c with
  | next => exact s.answers_next.position_le hs
  | seek position => exact Nat.min_le_right ..

lemma foldl_call (hs : s.position ≤ Text.byteLength s.text) (calls : List Call) :
    (calls.foldl call s).text = s.text ∧ (calls.foldl call s).position ≤ Text.byteLength s.text := by
  induction calls generalizing s with
  | nil => exact ⟨rfl, hs⟩
  | cons c calls ih =>
    have hc := ih (position_call_le hs c)
    rwa [text_call] at hc

def nextOfBytes (s : Scanner) : Except CompileError (Option Token) × Scanner :=
  let here := (Text.bytes s.text).drop s.position
  let after := s.position + (here.takeWhile fun b => Text.isBlank (Text.ofByte b)).length
  match here.dropWhile fun b => Text.isBlank (Text.ofByte b) with
  | [] => (.ok none, { s with position := after })
  | b :: bs => match Token.startOfBytes? after (b :: bs) with
    | some t => (.ok (some t), { s with position := after + t.length })
    | none => (.error ⟨.unknownToken, after⟩, { s with position := after })

lemma next_eq_nextOfBytes (hs : s.position ≤ Text.byteLength s.text) : s.next = s.nextOfBytes := by
  cases hd : Text.dropBytes? s.position s.text with
  | none =>
    obtain ⟨b, bs, hdrop, hb⟩ := Text.drop_bytes_of_none hd hs
    simp [next, nextOfBytes, hd, hdrop, Text.class_ofByte Text.isBlank_le hb,
      Token.startOfBytes?_of_le hb]
  | some rest =>
    obtain ⟨htake, hdrop⟩ := Text.takeWhile_bytes Text.isBlank_le rest
    simp only [next, nextOfBytes, hd, Text.drop_bytes hd, htake, hdrop, Text.length_bytes,
      Lexeme.byteLength_blanks, Token.find]
    cases hr : rest.dropWhile Text.isBlank with
    | nil => rfl
    | cons c cs =>
      obtain ⟨b, bs, hb⟩ := List.exists_cons_of_ne_nil (String.utf8EncodeChar_ne_nil (c := c))
      have hbytes : Text.bytes (c :: cs) = b :: (bs ++ Text.bytes cs) := by rw [Text.bytes_cons, hb]; rfl
      have hstart :=
        Token.start?_eq_startOfBytes? (s.position + (rest.takeWhile Text.isBlank).length) (c :: cs)
      rw [hbytes] at hstart
      simp only [hbytes, ← hstart]
      cases ht : Token.start? (s.position + (rest.takeWhile Text.isBlank).length) (c :: cs) with
      | none => rfl
      | some t => simp only [(Token.start?_text ht).1]

def answers : Nat → Scanner → List (Except CompileError (Option Token))
  | 0, _ => []
  | n + 1, s => s.next.1 :: answers n s.next.2

end Scanner

/-- Tokens and the blanks around them make up a text that starts at an offset. -/
inductive Tiles : Nat → List Char → List Token → Prop
  | blanks {position : Nat} {blanks : List Char} (hb : ∀ c ∈ blanks, Text.isBlank c = true) :
    Tiles position blanks []
  | token {position : Nat} {blanks rest : List Char} {t : Token} {ts : List Token}
    (hb : ∀ c ∈ blanks, Text.isBlank c = true) (hp : t.position = position + Text.byteLength blanks)
    (hl : t.length = Text.byteLength t.text) (h : Tiles (t.position + t.length) rest ts) :
    Tiles position (blanks ++ t.text ++ rest) (t :: ts)

namespace Token

variable {position p : Nat} {rest : List Char} {ts : List Token}

lemma split_of_find {t : Token} {here : List Char} (h : find position rest = .token t here) :
    rest = rest.takeWhile Text.isBlank ++ t.text ++ here.drop t.length ∧
      t.position = position + Text.byteLength (rest.takeWhile Text.isBlank) ∧
        t.length = Text.byteLength t.text := by
  obtain ⟨hs, -, hh⟩ := start?_of_find h
  obtain ⟨hp, hl, ha, after, ht⟩ := start?_text hs
  refine ⟨?_, ?_, ?_⟩
  · rw [ht, hl, List.drop_left, List.append_assoc, ← ht, hh, List.takeWhile_append_dropWhile]
  · rw [hp, Lexeme.byteLength_blanks]
  · rw [hl, Text.byteLength_of_ascii ha]

lemma tiles_all (h : all position rest = (ts, .ok p)) :
    Tiles position rest ts ∧ p = position + Text.byteLength rest := by
  fun_induction all position rest generalizing ts with
  | case1 position rest q hf =>
    cases h
    obtain ⟨rfl, hb⟩ := blank_of_find_finish hf
    exact ⟨.blanks hb, by rw [Text.byteLength_of_blank hb]⟩
  | case2 => cases h
  | case3 position rest t here hf us stop hall ih =>
    cases h
    obtain ⟨hsplit, hp, hl⟩ := split_of_find hf
    obtain ⟨htiles, hend⟩ := ih hall
    have hb : ∀ c ∈ rest.takeWhile Text.isBlank, Text.isBlank c = true := fun c => List.mem_takeWhile_imp
    refine ⟨hsplit ▸ .token hb hp hl htiles, ?_⟩
    have hlen := congrArg Text.byteLength hsplit
    simp only [Text.byteLength_append] at hlen
    omega

lemma answers_all (before : List Char) (hp : position = Text.byteLength before) :
    Scanner.answers ((all position rest).1.length + 1) ⟨before ++ rest, position⟩ =
      (all position rest).1.map (fun t => .ok (some t)) ++ [(all position rest).2.map fun _ => none] := by
  fun_induction all position rest generalizing before with
  | case1 position rest q hf =>
    subst hp
    simp [Scanner.answers, Scanner.next, Text.dropBytes?_append, hf, Except.map]
  | case2 position rest q hf =>
    subst hp
    simp [Scanner.answers, Scanner.next, Text.dropBytes?_append, hf, Except.map]
  | case3 position rest t here hf us stop hall ih =>
    obtain ⟨hsplit, hpos, hl⟩ := split_of_find hf
    have hnext : Scanner.next ⟨before ++ rest, position⟩ =
        (.ok (some t), ⟨before ++ rest, t.position + t.length⟩) := by
      simp [Scanner.next, hp, Text.dropBytes?_append, hp ▸ hf]
    have htext : before ++ rest =
        before ++ (rest.takeWhile Text.isBlank ++ t.text) ++ here.drop t.length := by
      rw [List.append_assoc, ← hsplit]
    -- the scanner keeps the whole text, so what is behind it grows by the blanks and the token
    have hi := ih (before ++ (rest.takeWhile Text.isBlank ++ t.text)) (by
      rw [hpos, hl, hp, Text.byteLength_append, Text.byteLength_append, Nat.add_assoc])
    rw [← htext, hall] at hi
    rw [List.length_cons, Scanner.answers, hnext, hi]
    rfl

lemma length_all_le (position : Nat) (rest : List Char) : (all position rest).1.length ≤ rest.length := by
  fun_induction all position rest with
  | case1 => exact Nat.zero_le _
  | case2 => exact Nat.zero_le _
  | case3 position rest t here hf us stop hall ih =>
    have hlt := length_drop_lt_of_find hf (start?_length_pos (start?_of_find hf).1)
    rw [hall] at ih
    exact Nat.succ_le_of_lt (ih.trans_lt hlt)

end Token

namespace Scanner

/-- After any calls, a scanner of an expression stands within the text, and the next token is the one that the
bytes give. A token is cut out of the text behind blanks only and the scanner moves past it; where no token
starts, the scanner says so and stays. Asked for tokens only, it gives those of the whole text, which they and
the blanks make up, unless there is a place where no token starts. -/
theorem scanner_tiles (expression : String) :
    (∀ calls : List Call,
      let s := calls.foldl call (ofExpression expression)
      s.text = Text.upper expression.toList ∧ s.position ≤ Text.byteLength s.text ∧ s.next = s.nextOfBytes ∧
        (∀ t s', s.next = (.ok (some t), s') → s.Yields t s') ∧
        (∀ s', s.next = (.ok none, s') → s'.position = Text.byteLength s.text ∧
          ∃ rest, Text.dropBytes? s.position s.text = some rest ∧ ∀ c ∈ rest, Text.isBlank c = true) ∧
        ∀ e s', s.next = (.error e, s') → e = ⟨.unknownToken, s'.position⟩ ∧ s'.next = (.error e, s')) ∧
    ∃ ts stop, Token.all 0 (Text.upper expression.toList) = (ts, stop) ∧
      ts.length ≤ Text.byteLength expression.toList ∧
      answers (ts.length + 1) (ofExpression expression) =
        ts.map (fun t => .ok (some t)) ++ [stop.map fun _ => none] ∧
      ∀ p, stop = .ok p → p = Text.byteLength expression.toList ∧
        Tiles 0 (Text.upper expression.toList) ts := by
  refine ⟨fun calls => ?_, _, _, rfl, ?_, Token.answers_all [] rfl, fun p hp => ?_⟩
  · intro s
    obtain ⟨htext, hle⟩ := foldl_call (s := ofExpression expression) (Nat.zero_le _) calls
    have hs : s.position ≤ Text.byteLength s.text := htext ▸ hle
    have hnext {answer : Except CompileError (Option Token)} {s' : Scanner} (h : s.next = (answer, s')) :
        Answers s answer s' := by
      have ha := s.answers_next
      rwa [h] at ha
    exact ⟨htext, hs, next_eq_nextOfBytes hs, fun t s' h => (hnext h).yields, fun s' h => (hnext h).blank,
      fun e s' h => (hnext h).again⟩
  · rw [← Text.byteLength_upper]
    exact (Token.length_all_le ..).trans (Text.length_le_byteLength _)
  · obtain ⟨htiles, hend⟩ := Token.tiles_all (Prod.ext rfl hp)
    rw [Nat.zero_add, Text.byteLength_upper] at hend
    exact ⟨hend, htiles⟩

theorem scanner_tiles_accent :
    (ofExpression " a+é").Yields ⟨.fetch, 0, 1, 1⟩ ⟨" A+é".toList, 2⟩ ∧
      let s := [Call.seek 4].foldl call (ofExpression " a+é")
      s.next = s.nextOfBytes ∧ s.next = (.error ⟨.unknownToken, 4⟩, s) := by
  have hfirst : (ofExpression " a+é").next = (.ok (some ⟨.fetch, 0, 1, 1⟩), ⟨" A+é".toList, 2⟩) := by decide
  have hinside : ([Call.seek 4].foldl call (ofExpression " a+é")).next =
      (.error ⟨.unknownToken, 4⟩, ⟨" A+é".toList, 4⟩) := by decide
  have h := (scanner_tiles " a+é").1
  exact ⟨(h []).2.2.2.1 _ _ hfirst, (h [.seek 4]).2.2.1, ((h [.seek 4]).2.2.2.2.2 _ _ hinside).2⟩

end Scanner

end FormulaCode
