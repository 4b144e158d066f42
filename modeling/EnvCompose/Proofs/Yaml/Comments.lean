import EnvCompose.Manifest.File
import EnvCompose.Proofs.Yaml.Displacement

/-!
# Comment lines before a document

Lines that start with a number sign and hold no line end of their own are passed over, and leave the
scanner as it is at the start of a text. So a document below such lines is read as it is without
them.
-/
namespace EnvCompose.Yaml

namespace Scanner

section Displacement

instance : Movable PossibleKey := ⟨fun d k => { k with place := moved d k.place }⟩

instance : Movable Scanner where
  moved d s := { s with
    cursor := moved d s.cursor
    possibleKey := s.possibleKey.map (moved d)
    outerKeys := s.outerKeys.map (Option.map (moved d)) }

variable (d : Offset) (s : Scanner)

@[simp] theorem cursor_moved : (moved d s).cursor = moved d s.cursor := rfl

@[simp] theorem tokens_moved : (moved d s).tokens = s.tokens := rfl

@[simp] theorem indent_moved : (moved d s).indent = s.indent := rfl

@[simp] theorem keyAllowed_moved : (moved d s).keyAllowed = s.keyAllowed := rfl

@[simp] theorem column_moved : (moved d s).column = s.column := rfl

@[simp] theorem inFlow_moved : (moved d s).inFlow = s.inFlow := by
  simp only [inFlow, moved, List.isEmpty_map]

private theorem closeBlocks_moved (column : Int) :
    closeBlocks column (moved d s) = moved d (closeBlocks column s) := by
  have hclose (outer : List Int) (s : Scanner) :
      closeBlocks.close column outer (moved d s) = moved d (closeBlocks.close column outer s) := by
    induction outer generalizing s with
    | nil => rfl
    | cons column' outer ih =>
      rw [closeBlocks.close, closeBlocks.close, moved_ite, ← ih]
      rfl
  unfold closeBlocks
  rw [inFlow_moved, moved_ite, ← hclose]
  rfl

private theorem openBlock_moved (column : Int) (tokenNumber : Option Nat) (t : Token) :
    openBlock column tokenNumber t (moved d s) = moved d (openBlock column tokenNumber t s) := by
  unfold openBlock
  rw [inFlow_moved, moved_ite]
  rfl

private theorem forgetKey_moved : forgetKey (moved d s) = moved d (forgetKey s) := by
  have hrequired : (moved d s).possibleKey.any (·.required) = s.possibleKey.any (·.required) := by
    cases h : s.possibleKey <;> simp [moved, h]
  unfold forgetKey
  rw [hrequired, moved_ite]
  rfl

private theorem noteKey_moved : noteKey (moved d s) = moved d (noteKey s) := by
  unfold noteKey
  rw [forgetKey_moved, inFlow_moved, keyAllowed_moved]
  split
  · rfl
  · cases forgetKey s <;> rfl

private theorem isStale_moved (here : Mark) (k : PossibleKey) :
    isStale (moved d here) (moved d k) = isStale here k := by
  simp only [isStale, moved]
  congr 1
  · simp
  · simp
    omega

private theorem dropStaleKeys_moved : dropStaleKeys (moved d s) = moved d (dropStaleKeys s) := by
  have hany (key : Option PossibleKey) :
      (key.map (moved d)).any (fun k => isStale (moved d s.cursor.mark) k && k.required) =
        key.any fun k => isStale s.cursor.mark k && k.required := by
    cases key with
    | none => rfl
    | some k => simp only [Option.map_some, Option.any_some, isStale_moved]; rfl
  have hfilter (key : Option PossibleKey) :
      (key.map (moved d)).filter (fun k => !isStale (moved d s.cursor.mark) k) =
        (key.filter fun k => !isStale s.cursor.mark k).map (moved d) := by
    cases key with
    | none => rfl
    | some k =>
      simp only [Option.map_some, Option.filter_some, isStale_moved]
      split <;> rfl
  have hstale : ((moved d s).possibleKey :: (moved d s).outerKeys).any
      (fun key => key.any fun k => isStale (moved d s.cursor.mark) k && k.required) =
        (s.possibleKey :: s.outerKeys).any fun key =>
          key.any fun k => isStale s.cursor.mark k && k.required := by
    simp only [moved, List.any_cons, List.any_map, Function.comp_def] at hany ⊢
    simp only [hany]
  unfold dropStaleKeys
  simp only [cursor_moved, mark_moved, hstale, moved_ite]
  split
  · rfl
  · simp only [moved_ok, Except.ok.injEq]
    simp only [moved] at hfilter ⊢
    simp only [hfilter, List.map_map, Function.comp_def]

theorem skipBlanks_moved (inFlow inComment allowed : Bool) (cs : List Char) (m : Mark) :
    skipBlanks inFlow inComment allowed cs (moved d m) =
      moved d (skipBlanks inFlow inComment allowed cs m) := by
  fun_induction skipBlanks inFlow inComment allowed cs m with
  | case1 => rw [skipBlanks]; rfl
  | _ =>
    rw [skipBlanks]
    · simp only [*, if_true, if_false, Yaml.column_moved, past_moved, next_moved, nextLine_moved,
        Bool.false_eq_true]
      try rfl
    all_goals assumption

private theorem openFlow_moved (t : Token) : openFlow t (moved d s) = moved d (openFlow t s) := by
  unfold openFlow
  rw [noteKey_moved]
  cases noteKey s <;> rfl

private theorem closeFlow_moved (t : Token) :
    closeFlow t (moved d s) = moved d (closeFlow t s) := by
  unfold closeFlow
  rw [forgetKey_moved]
  cases forgetKey s with
  | error e => rfl
  | ok s =>
    obtain ⟨cursor, tokens, indent, outerIndents, possibleKey, _ | ⟨key, outerKeys⟩, keyAllowed⟩ := s
      <;> rfl

private theorem readBoundary_moved (t : Token) :
    readBoundary t (moved d s) = moved d (readBoundary t s) := by
  unfold readBoundary
  rw [closeBlocks_moved, forgetKey_moved]
  cases forgetKey (s.closeBlocks (-1)) <;> rfl

private theorem readItem_moved : readItem (moved d s) = moved d (readItem s) := by
  unfold readItem
  rw [inFlow_moved, openBlock_moved, forgetKey_moved, keyAllowed_moved,
    column_moved]
  split
  · rfl
  · cases forgetKey (s.openBlock s.column none .blockSequenceStart) <;> rfl

private theorem readKey_moved : readKey (moved d s) = moved d (readKey s) := by
  unfold readKey
  rw [inFlow_moved, openBlock_moved, forgetKey_moved, keyAllowed_moved, column_moved]
  split
  · rfl
  · cases forgetKey (s.openBlock s.column none .blockMappingStart) with
    | error e => rfl
    | ok s =>
      simp only [moved_ok, ok_bind, inFlow_moved]
      rfl

private theorem readValue_moved : readValue (moved d s) = moved d (readValue s) := by
  unfold readValue
  cases h : s.possibleKey with
  | none =>
    have hnone : (moved d s).possibleKey = none := by simp [moved, h]
    simp only [hnone, inFlow_moved, keyAllowed_moved, column_moved, openBlock_moved, moved_ite]
    rfl
  | some key =>
    have hsome : (moved d s).possibleKey = some (moved d key) := by simp [moved, h]
    let t := { s with tokens := s.tokens.insertIdx! key.tokenNumber .key, possibleKey := none }
    have hopen := openBlock_moved d t key.place.column (some key.tokenNumber) .blockMappingStart
    simp only [hsome]
    exact congrArg (fun t => Except.ok (mark .value 1 false t)) hopen

private theorem readQuoted_moved (single : Bool) :
    readQuoted single (moved d s) = moved d (readQuoted single s) := by
  unfold readQuoted
  rw [noteKey_moved]
  cases noteKey s with
  | error e => rfl
  | ok s =>
    simp only [moved_ok, ok_bind, cursor_moved, rest_moved,
      mark_moved, next_moved, readSingleQuoted_moved, readDoubleQuoted_moved]
    cases single with
    | true => rcases readSingleQuoted {} (s.cursor.rest.drop 1) s.cursor.mark.next with e | r <;> rfl
    | false => rcases readDoubleQuoted {} (s.cursor.rest.drop 1) s.cursor.mark.next with e | r <;> rfl

private theorem readPlainScalar_moved :
    readPlainScalar (moved d s) = moved d (readPlainScalar s) := by
  unfold readPlainScalar
  rw [noteKey_moved]
  cases noteKey s with
  | error e => rfl
  | ok s =>
    simp only [moved_ok, ok_bind, cursor_moved, rest_moved,
      mark_moved, inFlow_moved, readPlain_moved, indent_moved]
    cases readPlain s.inFlow (s.indent + 1) {} false s.cursor.rest s.cursor.mark <;> rfl

private theorem readBlock_moved (literal : Bool) :
    readBlock literal (moved d s) = moved d (readBlock literal s) := by
  unfold readBlock
  rw [forgetKey_moved]
  cases forgetKey s with
  | error e => rfl
  | ok s =>
    simp only [moved_ok, ok_bind, cursor_moved, rest_moved,
      mark_moved, next_moved, readBlockScalar_moved, indent_moved]
    cases readBlockScalar literal s.indent (s.cursor.rest.drop 1) s.cursor.mark.next <;> rfl

private theorem readReference_moved (token : String → Token) :
    readReference token (moved d s) = moved d (readReference token s) := by
  unfold readReference
  rw [noteKey_moved]
  cases noteKey s with
  | error e => rfl
  | ok s =>
    simp only [moved_ok, ok_bind, cursor_moved, rest_moved,
      mark_moved, next_moved, readName_moved]
    cases readName (s.cursor.rest.drop 1) s.cursor.mark.next <;> rfl

private theorem readTagToken_moved : readTagToken (moved d s) = moved d (readTagToken s) := by
  unfold readTagToken
  rw [noteKey_moved]
  cases noteKey s with
  | error e => rfl
  | ok s =>
    simp only [moved_ok, ok_bind, cursor_moved, rest_moved,
      mark_moved, inFlow_moved, readTag_moved]
    cases readTag s.inFlow s.cursor.rest s.cursor.mark <;> rfl

private theorem readDirectiveToken_moved :
    readDirectiveToken (moved d s) = moved d (readDirectiveToken s) := by
  unfold readDirectiveToken
  rw [closeBlocks_moved, forgetKey_moved]
  cases forgetKey (s.closeBlocks (-1)) with
  | error e => rfl
  | ok s =>
    simp only [moved_ok, ok_bind, cursor_moved, rest_moved,
      mark_moved, next_moved, readDirective_moved]
    cases readDirective (s.cursor.rest.drop 1) s.cursor.mark.next <;> rfl

theorem readToken_moved (c : Char) (rest : List Char) :
    readToken (moved d s) c rest = moved d (readToken s c rest) := by
  unfold readToken
  simp only [cursor_moved, mark_moved, Yaml.column_moved, inFlow_moved, readDirectiveToken_moved,
    readBoundary_moved, openFlow_moved, closeFlow_moved, forgetKey_moved, readReference_moved,
    readTagToken_moved, readQuoted_moved, readItem_moved, readKey_moved, readValue_moved,
    readBlock_moved, readPlainScalar_moved]
  split
  · rfl
  · split
    · rfl
    · split
      case h_5 => cases s.forgetKey <;> rfl
      all_goals try rfl
      simp only [moved_ite]
      rfl

private theorem finish_moved : finish (moved d s) = moved d (finish s) := by
  rw [finish, closeBlocks_moved, forgetKey_moved, finish]

theorem readAll_moved (rounds : Nat) : readAll rounds (moved d s) = moved d (readAll rounds s) := by
  induction rounds generalizing s with
  | zero => rfl
  | succ rounds ih =>
    rw [readAll, readAll]
    simp only [cursor_moved, rest_moved, mark_moved, inFlow_moved, keyAllowed_moved, skipBlanks_moved]
    obtain ⟨allowed, cursor⟩ := skipBlanks s.inFlow false s.keyAllowed s.cursor.rest s.cursor.mark
    have hdrop := dropStaleKeys_moved d { s with keyAllowed := allowed, cursor }
    refine moved_bind d hdrop fun s => ?_
    rw [cursor_moved, rest_moved]
    split
    · exact finish_moved d s
    · rw [closeBlocks_moved, column_moved, readToken_moved]
      exact moved_bind d rfl ih

end Displacement

/-- More rounds do not change a scan that has come to its end. -/
theorem readAll_mono {rounds : Nat} {s t : Scanner} (h : readAll rounds s = .ok t) (more : Nat) :
    readAll (rounds + more) s = .ok t := by
  induction rounds generalizing s with
  | zero => cases h
  | succ rounds ih =>
    rw [Nat.succ_add, readAll]
    rw [readAll] at h
    generalize skipBlanks s.inFlow false s.keyAllowed s.cursor.rest s.cursor.mark = r at h ⊢
    obtain ⟨allowed, cursor⟩ := r
    obtain ⟨u, hu, hrest⟩ := bind_eq_ok.mp h
    refine bind_eq_ok.mpr ⟨u, hu, ?_⟩
    split at hrest
    · exact hrest
    · obtain ⟨v, hv, hrest⟩ := bind_eq_ok.mp hrest
      exact bind_eq_ok.mpr ⟨v, hv, ih hrest⟩

section Comments

variable {line : List Char} (h : ∀ c ∈ line, isBreak c = false)
include h

/-- A comment is passed over to the start of the next line, from where blanks are skipped on. -/
theorem skipBlanks_line (inFlow allowed : Bool) (rest : List Char) (m : Mark) :
    ∃ d : Offset, skipBlanks inFlow true allowed (line ++ '\n' :: rest) m =
      skipBlanks inFlow false (allowed || !inFlow) rest (moved d {}) := by
  induction line generalizing m with
  | nil =>
    refine ⟨⟨m.index + 1, m.line + 1⟩, ?_⟩
    rw [List.nil_append, skipBlanks]
    · rfl
    · simp
  | cons c line ih =>
    rw [List.forall_mem_cons] at h
    obtain ⟨d, hd⟩ := ih h.2 (m.past c)
    refine ⟨d, ?_⟩
    rw [List.cons_append, skipBlanks]
    · simpa [h.1] using hd
    · rintro rest' rfl -
      simp [isBreak] at h

end Comments

/-- Comment lines at the start of a text are passed over to the start of a line below them. -/
theorem skipBlanks_commentLines {lines : List String}
    (h : ∀ line ∈ lines, ∀ c ∈ line.toList, isBreak c = false) (rest : List Char) (d : Offset) :
    ∃ d' : Offset, skipBlanks false false true
        ((String.join (lines.map fun line => "# " ++ line ++ "\n")).toList ++ rest) (moved d {}) =
      skipBlanks false false true rest (moved d' {}) := by
  induction lines generalizing d with
  | nil => exact ⟨d, by simp⟩
  | cons line lines ih =>
    rw [List.forall_mem_cons] at h
    have hspace : ∀ c ∈ ' ' :: line.toList, isBreak c = false := by
      simpa [isBreak] using h.1
    have htext : (String.join ((line :: lines).map fun line => "# " ++ line ++ "\n")).toList ++ rest =
        '#' :: ((' ' :: line.toList) ++ '\n' ::
          ((String.join (lines.map fun line => "# " ++ line ++ "\n")).toList ++ rest)) := by
      simp
    obtain ⟨d₁, h₁⟩ := skipBlanks_line hspace false true
      ((String.join (lines.map fun line => "# " ++ line ++ "\n")).toList ++ rest) (Mark.next (moved d {}))
    obtain ⟨d₂, h₂⟩ := ih h.2 d₁
    refine ⟨d₂, ?_⟩
    rw [htext, skipBlanks]
    · simpa [isBreak] using h₁.trans h₂
    · simp

/-- A scan from the start depends only on what is left when its blanks have been skipped. -/
theorem readAll_congr {cs cs' : List Char} {m m' : Mark}
    (h : skipBlanks false false true cs m = skipBlanks false false true cs' m') (rounds : Nat) :
    readAll (rounds + 1) { cursor := ⟨cs, m⟩ } = readAll (rounds + 1) { cursor := ⟨cs', m'⟩ } := by
  rw [readAll, readAll]
  simp only [inFlow, List.isEmpty_nil, Bool.not_true, h]

end Scanner

/-- A text below comment lines has the tokens it has without them. -/
theorem Token.scan_below_comments {lines : List String}
    (hbreaks : ∀ line ∈ lines, ∀ c ∈ line.toList, isBreak c = false)
    (hallowed : ∀ line ∈ lines, ∀ c ∈ line.toList, isAllowed c = true) {text : String}
    {tokens : List Token} (h : Token.scan text = .ok tokens) :
    Token.scan (String.join (lines.map fun line => "# " ++ line ++ "\n") ++ text) = .ok tokens := by
  generalize hcomments : String.join (lines.map fun line => "# " ++ line ++ "\n") = comments
  unfold Token.scan at h ⊢
  split at h
  · cases h
  · rename_i htext
    have hall : (comments ++ text).toList.all isAllowed = true := by
      rw [String.toList_append, List.all_append, Bool.and_eq_true]
      refine ⟨List.all_eq_true.mpr fun c hc => ?_, by simpa using htext⟩
      rw [← hcomments, String.toList_join, List.mem_flatMap] at hc
      obtain ⟨_, hmem, hc⟩ := hc
      obtain ⟨line, hline, rfl⟩ := List.mem_map.mp hmem
      simp only [String.toList_append, List.mem_append] at hc
      rcases hc with (hc | hc) | hc
      · exact List.all_eq_true.mp (by decide) c hc
      · exact hallowed line hline c hc
      · exact List.all_eq_true.mp (by decide) c hc
    obtain ⟨s, hs, htokens⟩ := bind_eq_ok.mp h
    obtain rfl := Except.ok.inj htokens
    obtain ⟨d, hd⟩ := Scanner.skipBlanks_commentLines hbreaks text.toList ⟨0, 0⟩
    have hsame (rounds : Nat) :
        Scanner.readAll (rounds + 1) { cursor := ⟨(comments ++ text).toList, {}⟩ } =
          Scanner.readAll (rounds + 1) (moved d { cursor := ⟨text.toList, {}⟩ }) := by
      rw [hcomments, ← String.toList_append] at hd
      exact Scanner.readAll_congr hd rounds
    have hmore : (comments ++ text).length + 1 = (text.length + 1) + comments.length := by
      rw [String.length_append]
      omega
    rw [hall, hsame, Scanner.readAll_moved, hmore, Scanner.readAll_mono hs]
    rfl

theorem Value.parse_below_comments {lines : List String}
    (hbreaks : ∀ line ∈ lines, ∀ c ∈ line.toList, isBreak c = false)
    (hallowed : ∀ line ∈ lines, ∀ c ∈ line.toList, isAllowed c = true) {text : String} {v : Value}
    (h : Value.parse text = .ok v) :
    Value.parse (String.join (lines.map fun line => "# " ++ line ++ "\n") ++ text) = .ok v := by
  unfold Value.parse Document.ofText? at h ⊢
  cases hscan : Token.scan text with
  | error e => simp [hscan, bind, Except.bind] at h
  | ok tokens =>
    rw [hscan] at h
    rw [Token.scan_below_comments hbreaks hallowed hscan]
    exact h

end EnvCompose.Yaml

namespace EnvCompose
open Yaml

/-- Whether a text can stand in comments: its characters are those of a document, and its lines end
with a line feed or a carriage return and a line feed. -/
def isHeaderText : List Char → Bool
  | '\r' :: '\n' :: rest => isHeaderText rest
  | c :: rest => (c == '\n' || isAllowed c && !isBreak c) && isHeaderText rest
  | [] => true

private theorem forall_mem_linesFrom {line cs : List Char}
    (hline : ∀ c ∈ line, isAllowed c = true ∧ isBreak c = false) (h : isHeaderText cs = true) :
    ∀ l ∈ Text.linesFrom line cs, ∀ c ∈ l, isAllowed c = true ∧ isBreak c = false := by
  have hempty : ∀ c ∈ ([] : List Char), isAllowed c = true ∧ isBreak c = false := by simp
  fun_induction Text.linesFrom line cs with
  | case1 => simp
  | case2 line => simpa using hline
  | case3 line rest ih =>
    rw [isHeaderText] at h
    refine List.forall_mem_cons.mpr ⟨by simpa using hline, ih hempty h⟩
  | case4 line rest ih =>
    rw [isHeaderText, Bool.and_eq_true] at h
    · exact List.forall_mem_cons.mpr ⟨by simpa using hline, ih hempty h.2⟩
    · simp
  | case5 line c rest hcrlf hlf ih =>
    rw [isHeaderText, Bool.and_eq_true] at h
    · have hc : c ≠ '\n' := fun heq => hlf heq
      refine ih (List.forall_mem_cons.mpr ⟨?_, hline⟩) h.2
      simpa [hc] using h.1
    · exact hcrlf

/-- A document below a header is read as it is without it. -/
theorem Yaml.Value.parse_commentLines {header : String} (h : isHeaderText header.toList = true)
    {text : String} {v : Value} (hv : Value.parse text = .ok v) :
    Value.parse (commentLines header ++ text) = .ok v := by
  have hempty : ∀ c ∈ ([] : List Char), isAllowed c = true ∧ isBreak c = false := by simp
  have hlines : ∀ line ∈ Text.lines header, ∀ c ∈ line.toList,
      isAllowed c = true ∧ isBreak c = false := by
    intro line hline
    obtain ⟨l, hl, rfl⟩ := List.mem_map.mp hline
    rw [String.toList_ofList]
    exact forall_mem_linesFrom hempty h l hl
  exact Value.parse_below_comments (fun line hline c hc => (hlines line hline c hc).2)
    (fun line hline c hc => (hlines line hline c hc).1) hv

end EnvCompose
