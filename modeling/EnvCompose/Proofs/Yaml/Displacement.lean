import EnvCompose.Proofs.Attempts
import EnvCompose.Yaml.Token.Block
import EnvCompose.Yaml.Token.Folded
import EnvCompose.Yaml.Token.Words

/-!
# Words and scalars further down in a text

The reader of a text looks at columns, and compares lines and octet counts with those of places
before. So a text that stands further down is read as it would be at the start, and every place that
is noted or reported on the way is moved along.
-/
namespace EnvCompose.Yaml

/-- How far a text has been moved down. -/
structure Offset where
  octets : Nat
  lines : Nat

/-- Things that hold places in a text. -/
class Movable (α : Type) where
  moved : Offset → α → α

export Movable (moved)

section Places

instance : Movable Mark :=
  ⟨fun d m => { m with index := d.octets + m.index, line := d.lines + m.line }⟩

instance : Movable Cursor := ⟨fun d c => ⟨c.rest, moved d c.mark⟩⟩

instance : Movable SyntaxError where
  moved d
    | .unexpectedCharacter m => .unexpectedCharacter (moved d m)
    | .unexpectedEnd m => .unexpectedEnd (moved d m)
    | .unexpectedBoundary m => .unexpectedBoundary (moved d m)
    | .tabIndentation m => .tabIndentation (moved d m)
    | .badDirective m => .badDirective (moved d m)
    | .badAnchor m => .badAnchor (moved d m)
    | .badTag m => .badTag (moved d m)
    | .badBlockHeader m => .badBlockHeader (moved d m)
    | .badEscape m => .badEscape (moved d m)
    | .missingColon m => .missingColon (moved d m)
    | .misplacedItem m => .misplacedItem (moved d m)
    | .misplacedKey m => .misplacedKey (moved d m)
    | .misplacedValue m => .misplacedValue (moved d m)
    | e => e

/-- What has been read, with the place after it. -/
instance {α β : Type} [Movable β] : Movable (α × β) := ⟨fun d r => (r.1, moved d r.2)⟩

instance {α : Type} [Movable α] : Movable (Except SyntaxError α) where
  moved d
    | .ok a => .ok (moved d a)
    | .error e => .error (moved d e)

/-- A flag holds no place. -/
instance : Movable Bool := ⟨fun _ b => b⟩

variable (d : Offset) (m : Mark)

@[simp] theorem column_moved : (moved d m).column = m.column := rfl

@[simp] theorem past_moved (c : Char) : (moved d m).past c = moved d (m.past c) := by
  simp only [moved, Mark.past, Nat.add_assoc]

@[simp] theorem advance_moved (count : Nat) :
    (moved d m).advance count = moved d (m.advance count) := by
  simp only [moved, Mark.advance, Nat.add_assoc]

@[simp] theorem next_moved : (moved d m).next = moved d m.next := advance_moved d m 1

@[simp] theorem nextLine_moved (octets : Nat) :
    (moved d m).nextLine octets = moved d (m.nextLine octets) := by
  simp only [moved, Mark.nextLine, Nat.add_assoc]

@[simp] theorem moved_cursor (rest : List Char) : moved d (Cursor.mk rest m) = ⟨rest, moved d m⟩ := rfl

@[simp] theorem rest_moved (c : Cursor) : (moved d c).rest = c.rest := rfl

@[simp] theorem mark_moved (c : Cursor) : (moved d c).mark = moved d c.mark := rfl

@[simp] theorem moved_pair {α β : Type} [Movable β] (a : α) (b : β) :
    moved d (a, b) = (a, moved d b) := rfl

@[simp] theorem moved_ok {α : Type} [Movable α] (a : α) :
    moved d (.ok a : Except SyntaxError α) = .ok (moved d a) := rfl

@[simp] theorem moved_error {α : Type} [Movable α] (e : SyntaxError) :
    moved d (.error e : Except SyntaxError α) = .error (moved d e) := rfl

@[simp] theorem moved_ite {α : Type} [Movable α] (p : Prop) [Decidable p] (x y : α) :
    moved d (if p then x else y) = if p then moved d x else moved d y := by
  split <;> rfl

theorem moved_bind {α β : Type} [Movable α] [Movable β] {x y : Except SyntaxError α}
    {f g : α → Except SyntaxError β} (hx : x = moved d y)
    (hf : ∀ a, f (moved d a) = moved d (g a)) : (x >>= f) = moved d (y >>= g) := by
  subst hx
  cases y with
  | ok a => exact hf a
  | error e => rfl

end Places

section Words

variable (d : Offset) (cs : List Char) (m : Mark)

@[simp] theorem skipWhile_moved (test : Char → Bool) :
    skipWhile test cs (moved d m) = moved d (skipWhile test cs m) := by
  induction cs generalizing m with
  | nil => rfl
  | cons c cs ih =>
    rw [skipWhile, skipWhile]
    split
    · rw [past_moved, ih]
    · rfl

@[simp] theorem skipBreak_moved : skipBreak cs (moved d m) = moved d (skipBreak cs m) := by
  unfold skipBreak
  split
  · simp
  · split <;> simp
  · rfl

@[simp] theorem skipComment_moved : skipComment cs (moved d m) = moved d (skipComment cs m) := by
  unfold skipComment
  split
  · exact skipWhile_moved d _ m _
  · rfl

@[simp] theorem takeWord_moved (test : Char → Bool) :
    takeWord test cs (moved d m) = moved d (takeWord test cs m) := by
  simp [takeWord]

theorem readName_moved : readName cs (moved d m) = moved d (readName cs m) := by
  unfold readName
  rw [takeWord_moved]
  obtain ⟨word, c⟩ := takeWord isWordChar cs m
  simp only [moved_pair, rest_moved, mark_moved, moved_ite, moved_ok, moved_error]
  rfl

private theorem readTagChars_moved (bracketed : Bool) (pending : Nat) (octets : TagOctets) :
    readTagChars bracketed pending octets cs (moved d m) =
      moved d (readTagChars bracketed pending octets cs m) := by
  fun_induction readTagChars bracketed pending octets cs m with
  | case9 _ _ _ h =>
    rw [readTagChars, if_pos h]
    rfl
  | case10 _ _ _ h =>
    rw [readTagChars, if_neg h]
    rfl
  | _ =>
    rw [readTagChars]
    · simp +zetaDelta only [*, advance_moved, next_moved, if_true, if_false, Bool.false_eq_true]
      try rfl
    all_goals assumption

private theorem readHandle_moved (directive : Bool) :
    readHandle directive cs (moved d m) = moved d (readHandle directive cs m) := by
  unfold readHandle
  split
  · rw [next_moved, takeWord_moved]
    obtain ⟨word, c⟩ := takeWord isWordChar _ m.next
    simp only [moved_pair, rest_moved, mark_moved]
    split
    · simp
    · split <;> rfl
  · rfl

theorem readTag_moved (inFlow : Bool) :
    readTag inFlow cs (moved d m) = moved d (readTag inFlow cs m) := by
  unfold readTag
  split
  · rw [advance_moved, readTagChars_moved]
    rcases readTagChars true 0 [] _ (m.advance 2) with e | ⟨octets, rest, m⟩
    · rfl
    · simp only [moved_ok, moved_pair, moved_cursor, ok_bind, error_bind, pure_eq_ok, throw_eq_error]
      repeat' first | rfl | split
  · rw [readHandle_moved]
    rcases readHandle false _ m with e | ⟨handle, rest, m⟩
    · rfl
    · simp only [moved_ok, moved_pair, moved_cursor, readTagChars_moved, ok_bind]
      rcases readTagChars false 0 [] rest m with e | ⟨octets, rest, m⟩
      · split <;> rfl
      · simp only [moved_ok, moved_pair, moved_cursor, ok_bind, error_bind, pure_eq_ok, throw_eq_error]
        repeat' first | rfl | split

private theorem readVersionNumber_moved :
    readVersionNumber cs (moved d m) = moved d (readVersionNumber cs m) := by
  unfold readVersionNumber
  rw [takeWord_moved]
  obtain ⟨digits, c⟩ := takeWord Char.isDigit cs m
  simp only [moved_pair, mark_moved, moved_ite, moved_ok, moved_error]
  rfl

theorem readDirective_moved : readDirective cs (moved d m) = moved d (readDirective cs m) := by
  unfold readDirective
  rw [takeWord_moved]
  obtain ⟨name, rest, m⟩ := takeWord isWordChar cs m
  simp only [moved_pair, moved_cursor, skipWhile_moved]
  obtain ⟨rest', m'⟩ := skipWhile isBlank rest m
  simp only [moved_cursor, readVersionNumber_moved, readHandle_moved, ok_bind, error_bind,
    pure_eq_ok, throw_eq_error]
  split
  · rfl
  · split
    · rcases readVersionNumber rest' m' with e | ⟨major, rest, m⟩
      · rfl
      · simp only [moved_ok, moved_pair, moved_cursor, next_moved, readVersionNumber_moved, ok_bind]
        split
        · rcases readVersionNumber _ m.next with e | ⟨minor, rest, m⟩
          · rfl
          · simp only [moved_ok, moved_pair, moved_cursor, ok_bind, skipWhile_moved,
              skipComment_moved, rest_moved, mark_moved, skipBreak_moved]
            split <;> rfl
        · rfl
    · rcases readHandle true rest' m' with e | ⟨handle, rest, m⟩
      · rfl
      · simp only [moved_ok, moved_pair, moved_cursor, skipWhile_moved, ok_bind]
        obtain ⟨rest', m'⟩ := skipWhile isBlank rest m
        simp only [moved_cursor, readTagChars_moved]
        split
        · rfl
        · rcases readTagChars true 0 [] rest' m' with e | ⟨octets, rest, m⟩
          · rfl
          · simp only [moved_ok, moved_pair, moved_cursor, ok_bind, skipWhile_moved,
              skipComment_moved, rest_moved, mark_moved, skipBreak_moved]
            split
            · rfl
            · split <;> rfl
    · rfl

end Words

section Scalars

variable (d : Offset) (cs : List Char) (m : Mark)

private theorem plainStops_moved (inFlow : Bool) :
    plainStops inFlow (moved d m) cs = moved d (plainStops inFlow m cs) := by
  unfold plainStops
  repeat' first | rfl | split

theorem readPlain_moved (inFlow : Bool) (indent : Int) (f : Folded) (gap : Bool) :
    readPlain inFlow indent f gap cs (moved d m) =
      moved d (readPlain inFlow indent f gap cs m) := by
  fun_induction readPlain inFlow indent f gap cs m with
  | case1 => rw [readPlain]; rfl
  | case2 f gap rest m ih => rw [readPlain, nextLine_moved, ih]
  | _ =>
    rw [readPlain]
    · dsimp only [column_moved]
      simp only [*, if_true, if_false, past_moved, next_moved, nextLine_moved, plainStops_moved,
        moved_ok, moved_error, Bool.false_eq_true]
      try rfl
    · assumption

theorem readSingleQuoted_moved (f : Folded) :
    readSingleQuoted f cs (moved d m) = moved d (readSingleQuoted f cs m) := by
  fun_induction readSingleQuoted f cs m with
  | case1 => rw [readSingleQuoted]; rfl
  | _ =>
    rw [readSingleQuoted]
    · simp only [*, if_true, if_false, column_moved, past_moved, next_moved, nextLine_moved,
        advance_moved, Bool.false_eq_true]
      try rfl
    all_goals assumption

theorem readDoubleQuoted_moved (f : Folded) :
    readDoubleQuoted f cs (moved d m) = moved d (readDoubleQuoted f cs m) := by
  fun_induction readDoubleQuoted f cs m with
  | case1 => rw [readDoubleQuoted]; rfl
  | _ =>
    rw [readDoubleQuoted]
    · simp only [*, if_true, if_false, column_moved, past_moved, next_moved, nextLine_moved,
        advance_moved, Bool.false_eq_true]
      try rfl
    all_goals assumption

private theorem readHeader_moved :
    BlockHeader.read cs (moved d m) = moved d (BlockHeader.read cs m) := by
  unfold BlockHeader.read
  repeat' first | rfl | split

private theorem readLeading_moved (longest : Nat) (emptyLines : List Char) :
    readLeading longest emptyLines cs (moved d m) =
      moved d (readLeading longest emptyLines cs m) := by
  fun_induction readLeading longest emptyLines cs m with
  | case1 => rw [readLeading]; rfl
  | _ =>
    rw [readLeading]
    · simp only [*, if_true, if_false, column_moved, next_moved, nextLine_moved, Bool.false_eq_true]
      try rfl
    all_goals assumption

private theorem readLines_moved (literal : Bool) (indent : Nat) (b : BlockLines) (started : Bool) :
    readLines literal indent b started cs (moved d m) =
      moved d (readLines literal indent b started cs m) := by
  fun_induction readLines literal indent b started cs m with
  | case1 => rw [readLines]; rfl
  | case2 _ _ _ ih | case3 _ _ _ ih => rw [readLines, nextLine_moved, ih]
  | case4 | case5 =>
    rw [readLines]
    · simp only [*, if_true, if_false, past_moved, nextLine_moved, Bool.false_eq_true]
    · assumption
  | _ =>
    rw [readLines]
    · dsimp only [column_moved]
      simp only [*, if_true, if_false, past_moved, next_moved, nextLine_moved, Bool.false_eq_true]
      try rfl
    · assumption

theorem readBlockScalar_moved (literal : Bool) (parent : Int) :
    readBlockScalar literal parent cs (moved d m) =
      moved d (readBlockScalar literal parent cs m) := by
  unfold readBlockScalar
  rw [readHeader_moved]
  rcases BlockHeader.read cs m with e | ⟨header, rest, m⟩
  · rfl
  · simp only [moved_ok, moved_pair, moved_cursor, skipWhile_moved, skipComment_moved,
      skipBreak_moved, rest_moved, mark_moved, ok_bind, pure_eq_ok, throw_eq_error, error_bind,
      readLines_moved, readLeading_moved]
    generalize skipWhile isBlank rest m = c
    generalize skipBreak (skipComment c.rest c.mark).rest _ = c'
    split
    · rfl
    · split
      · rcases readLines literal _ _ false c'.rest c'.mark with e | ⟨lines, rest, m⟩ <;> rfl
      · rcases readLeading 0 [] c'.rest c'.mark with e | ⟨longest, emptyLines, rest, m⟩
        · rfl
        · simp only [moved_ok, moved_pair, moved_cursor, ok_bind, readLines_moved]
          rcases readLines literal _ _ false rest m with e | ⟨lines, rest, m⟩ <;> rfl

end Scalars
end EnvCompose.Yaml
