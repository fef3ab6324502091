import Mathlib.Data.List.TakeWhile
import DistributedSystems.MCertiKOS.Printfmt

/-!
# Scanning a format string

Every format string is a list of pieces, with a `%` and flags left over at its end or not.
`vprintfmt` puts out one piece after the other: after a sequence that it does not recognise it goes
back to the byte after the `%`, and the next round takes what follows for ordinary text.
-/

namespace MCertiKOS.Printfmt

/-! ## 1. Format strings as pieces -/

def isFlag (ch : UInt8) : Bool :=
  match label ch with
  | .convert _ | .default => false
  | _ => true

def isStar (ch : UInt8) : Bool := label ch matches .star

def isLong (ch : UInt8) : Bool := label ch matches .long

/-- An ordinary character, or an escape sequence up to the character that ends it. -/
inductive Piece
  | text (ch : UInt8)
  | escape (flags : List UInt8) (ch : UInt8)

def Piece.bytes : Piece → List UInt8
  | text ch => [ch]
  | escape flags ch => chr '%' :: flags ++ [ch]

def Piece.WF : Piece → Prop
  | text ch => ch ≠ chr '%' ∧ ch ≠ 0
  | escape flags ch => (∀ f ∈ flags, isFlag f = true) ∧ isFlag ch = false ∧ ch ≠ 0

def Conversion.wants (lib : Library) (lflag : Int) : Conversion → List Kind
  | character => [.int]
  | string => [.string]
  | decimal | unsigned | hexadecimal => [numKind lflag]
  | octal =>
    match lib with
    | .kern => [.pointer]
    | .user => []
  | pointer => [.pointer]
  | percent => []

def conversion (ch : UInt8) : Option Conversion :=
  match label ch with
  | .convert conv => some conv
  | _ => none

def stars (flags : List UInt8) : List Kind := List.replicate (flags.countP isStar) .int

def Piece.wants (lib : Library) : Piece → List Kind
  | text _ => []
  | escape flags ch => stars flags ++
      (conversion ch).elim [] (Conversion.wants lib (toInt (flags.countP isLong)))

def literally (l : List UInt8) : List Int := l.map fun ch => (ch.toNat : Int)

/-- What is to be put out for a piece.  The output of a sequence that is not recognised is its own
text. -/
def Piece.render (lib : Library) : Piece → List Arg → Option (List Int × List Arg)
  | text ch, args => some (literally [ch], args)
  | escape flags ch, args => do
    let (conv, esc, args, _) ← reswitch (flags.length + 1) {} args ⟨[], flags ++ [ch]⟩
    match conv with
    | none => some (literally (chr '%' :: flags ++ [ch]), args)
    | some conv => convert lib esc args conv

def render (lib : Library) : List Piece → List Arg → Option (List Int)
  | [], _ => some []
  | p :: pieces, args => do
    let (shown, args) ← p.render lib args
    let rest ← render lib pieces args
    some (shown ++ rest)

/-! ## 2. Arguments -/

variable {lib : Library} {args : List Arg} {more : List Kind}

theorem vaArg_of_kind {k : Kind} (h : args.map Arg.kind = k :: more) :
    ∃ a args', vaArg k args = some (a, args') ∧ args'.map Arg.kind = more := by
  cases args with
  | nil => cases h
  | cons a args =>
    obtain ⟨hk, hmore⟩ := List.cons.inj h
    exact ⟨a, args, if_pos hk, hmore⟩

theorem convert_of_wants {esc : Escape} {conv : Conversion}
    (h : args.map Arg.kind = conv.wants lib esc.lflag ++ more) :
    ∃ r, convert lib esc args conv = some r ∧ r.2.map Arg.kind = more := by
  cases conv with
  | percent => exact ⟨_, rfl, h⟩
  | octal =>
    cases lib with
    | user => exact ⟨_, rfl, h⟩
    | kern =>
      obtain ⟨a, args', ha, hmore⟩ := vaArg_of_kind h
      simpa [convert, printPointer, ha] using hmore
  | _ =>
    obtain ⟨a, args', ha, hmore⟩ := vaArg_of_kind h
    simpa [convert, printPointer, getint, getuint, ha] using hmore

/-! ## 3. Flags -/

theorem label_of_isDigit {ch : UInt8} (h : isDigit ch = true) :
    label ch = .zero ∨ label ch = .width := by
  unfold label
  rw [if_pos h]
  split
  · exact Or.inl rfl
  · exact Or.inr rfl

theorem isDigit_of_not_isFlag {ch : UInt8} (h : isFlag ch = false) : isDigit ch = false := by
  by_contra hd
  rw [Bool.not_eq_false] at hd
  rcases label_of_isDigit hd with hl | hl <;> simp [isFlag, hl] at h

theorem widthField_flags (flags : List UInt8) {ch : UInt8} (hch : isFlag ch = false)
    (precision : Int) :
    ∃ n digits rest, flags = digits ++ rest ∧ (∀ d ∈ digits, isDigit d = true) ∧
      ∀ before after, widthField precision before (flags ++ ch :: after) =
        some (n, ⟨digits.reverse ++ before, rest ++ ch :: after⟩) := by
  induction flags generalizing precision with
  | nil =>
    refine ⟨precision, [], [], rfl, by simp, fun before after => ?_⟩
    simp [widthField, isDigit_of_not_isFlag hch]
  | cons f flags ih =>
    by_cases hf : isDigit f = true
    · obtain ⟨n, digits, rest, rfl, hdigits, hrun⟩ := ih (addDigit precision f)
      refine ⟨n, f :: digits, rest, rfl, by simpa [hf] using hdigits, fun before after => ?_⟩
      simpa [widthField, hf] using hrun (f :: before) after
    · refine ⟨precision, [], f :: flags, rfl, by simp, fun before after => ?_⟩
      simp [widthField, hf]

theorem countP_digits {p : UInt8 → Bool} (hp : ∀ d, isDigit d = true → p d = false)
    {digits : List UInt8} (h : ∀ d ∈ digits, isDigit d = true) : digits.countP p = 0 := by
  rw [List.countP_eq_zero]
  intro d hd
  simp [hp d (h d hd)]

theorem isStar_digit (d : UInt8) (h : isDigit d = true) : isStar d = false := by
  rcases label_of_isDigit h with hl | hl <;> simp [isStar, hl]

theorem isLong_digit (d : UInt8) (h : isDigit d = true) : isLong d = false := by
  rcases label_of_isDigit h with hl | hl <;> simp [isLong, hl]

theorem reswitch_end {ch : UInt8} (hch : isFlag ch = false) (esc : Escape) (args : List Arg)
    (before after : List UInt8) {fuel : Nat} (hfuel : 0 < fuel) :
    reswitch fuel esc args ⟨before, ch :: after⟩ =
      some (conversion ch, esc, args, ⟨ch :: before, after⟩) := by
  obtain ⟨fuel, rfl⟩ : ∃ k, fuel = k + 1 := ⟨fuel - 1, by omega⟩
  unfold reswitch conversion
  unfold isFlag at hch
  simp only [Cursor.next, Option.bind_eq_bind, Option.bind_some]
  split at hch <;> simp_all

/-- One round of the `switch` takes the scanner from `taken ++ rest` to `rest`, whatever is around
them; `more` are the arguments that are left after the flags. -/
structure Passes (more : List Kind) (ch : UInt8) (taken rest : List UInt8) (esc : Escape)
    (args : List Arg) (esc' : Escape) (args' : List Arg) : Prop where
  supplied : args'.map Arg.kind = stars rest ++ more
  lflag : toInt esc'.lflag = esc'.lflag
  longs : toInt (esc'.lflag + rest.countP isLong) =
    toInt (esc.lflag + (taken ++ rest).countP isLong)
  step : ∀ fuel before after,
    reswitch (fuel + 1) esc args ⟨before, taken ++ rest ++ ch :: after⟩ =
      reswitch fuel esc' args' ⟨taken.reverse ++ before, rest ++ ch :: after⟩

theorem Passes.plain {f ch : UInt8} {digits rest : List UInt8} {esc esc' : Escape}
    (hargs : args.map Arg.kind = stars (f :: digits ++ rest) ++ more)
    (hlflag : toInt esc.lflag = esc.lflag) (hs : isStar f = false) (hl : isLong f = false)
    (hdigits : ∀ d ∈ digits, isDigit d = true) (hesc : esc'.lflag = esc.lflag)
    (hstep : ∀ fuel before after,
      reswitch (fuel + 1) esc args ⟨before, f :: digits ++ rest ++ ch :: after⟩ =
        reswitch fuel esc' args ⟨(f :: digits).reverse ++ before, rest ++ ch :: after⟩) :
    Passes more ch (f :: digits) rest esc args esc' args where
  supplied := by
    have hstars : (f :: digits ++ rest).countP isStar = rest.countP isStar := by
      simp [hs, countP_digits isStar_digit hdigits]
    rw [hargs, stars, hstars, stars]
  lflag := by rw [hesc, hlflag]
  longs := by simp [hesc, hl, countP_digits isLong_digit hdigits]
  step := hstep

theorem passes_flag {f ch : UInt8} (hf : isFlag f = true) (hch : isFlag ch = false)
    (flags : List UInt8) (esc : Escape) (hargs : args.map Arg.kind = stars (f :: flags) ++ more)
    (hlflag : toInt esc.lflag = esc.lflag) :
    ∃ digits rest esc' args', flags = digits ++ rest ∧
      Passes more ch (f :: digits) rest esc args esc' args' := by
  have single : ∀ esc' : Escape, esc'.lflag = esc.lflag → isStar f = false → isLong f = false →
      (∀ fuel before after, reswitch (fuel + 1) esc args ⟨before, f :: flags ++ ch :: after⟩ =
        reswitch fuel esc' args ⟨f :: before, flags ++ ch :: after⟩) →
      ∃ digits rest esc' args', flags = digits ++ rest ∧
        Passes more ch (f :: digits) rest esc args esc' args' := by
    intro esc' hesc hs hl hstep
    exact ⟨[], flags, esc', args, rfl, Passes.plain hargs hlflag hs hl (by simp) hesc hstep⟩
  cases hlabel : label f with
  | minus =>
    apply single { esc with padc := chr '-' } rfl <;>
      simp [isStar, isLong, reswitch, Cursor.next, hlabel]
  | zero =>
    apply single { esc with padc := chr '0' } rfl <;>
      simp [isStar, isLong, reswitch, Cursor.next, hlabel]
  | dot =>
    apply single { esc with width := if esc.width < 0 then 0 else esc.width } rfl <;>
      simp [isStar, isLong, reswitch, Cursor.next, hlabel]
  | hash =>
    apply single { esc with altflag := true } rfl <;>
      simp [isStar, isLong, reswitch, Cursor.next, hlabel]
  | width =>
    obtain ⟨n, digits, rest, rfl, hdigits, hrun⟩ := widthField_flags flags hch (addDigit 0 f)
    refine ⟨digits, rest, esc.processPrecision n, args, rfl, Passes.plain hargs hlflag
      (by simp [isStar, hlabel]) (by simp [isLong, hlabel]) hdigits ?_ fun fuel before after => ?_⟩
    · unfold Escape.processPrecision
      split <;> rfl
    · have hrun := hrun (f :: before) after
      rw [List.append_assoc] at hrun
      simp [reswitch, Cursor.next, hlabel, hrun]
  | star =>
    have hstar : isStar f = true := by simp [isStar, hlabel]
    have hargs' : args.map Arg.kind = .int :: (stars flags ++ more) := by
      rw [hargs, stars, List.countP_cons_of_pos hstar]
      rfl
    obtain ⟨a, args', ha, hmore⟩ := vaArg_of_kind hargs'
    have hesc : (esc.processPrecision a.signed).lflag = esc.lflag := by
      unfold Escape.processPrecision
      split <;> rfl
    refine ⟨[], flags, esc.processPrecision a.signed, args', rfl, hmore, ?_, ?_, ?_⟩
    · rw [hesc, hlflag]
    · simp [hesc, isLong, hlabel]
    · intro fuel before after
      simp [reswitch, Cursor.next, hlabel, ha]
  | long =>
    refine ⟨[], flags, { esc with lflag := toInt (esc.lflag + 1) }, args, rfl, ?_, ?_, ?_, ?_⟩
    · rw [hargs, stars, List.countP_cons_of_neg (by simp [isStar, hlabel]), stars]
    · exact Int.bmod_bmod
    · have hone : (f :: flags).countP isLong = flags.countP isLong + 1 :=
        List.countP_cons_of_pos (by simp [isLong, hlabel])
      rw [List.cons_append, List.nil_append, hone]
      unfold toInt
      rw [Int.bmod_add_bmod]
      congr 1
      push_cast
      omega
    · intro fuel before after
      simp [reswitch, Cursor.next, hlabel]
  | convert conv => simp [isFlag, hlabel] at hf
  | default => simp [isFlag, hlabel] at hf

theorem reswitch_flags {ch : UInt8} (hch : isFlag ch = false) (n : Nat) :
    ∀ (flags : List UInt8) (esc : Escape) (args : List Arg), flags.length ≤ n →
      (∀ f ∈ flags, isFlag f = true) → args.map Arg.kind = stars flags ++ more →
      toInt esc.lflag = esc.lflag →
      ∃ esc' args', args'.map Arg.kind = more ∧
        esc'.lflag = toInt (esc.lflag + flags.countP isLong) ∧
        ∀ fuel before after, flags.length < fuel →
          reswitch fuel esc args ⟨before, flags ++ ch :: after⟩ =
            some (conversion ch, esc', args', ⟨ch :: (flags.reverse ++ before), after⟩) := by
  -- on the length of the flags, since a width field takes several of them
  induction n with
  | zero =>
    intro flags esc args hlen _ hargs hlflag
    obtain rfl := List.length_eq_zero_iff.mp (Nat.le_zero.mp hlen)
    refine ⟨esc, args, hargs, by simp [hlflag], fun fuel before after hfuel => ?_⟩
    exact reswitch_end hch esc args before after hfuel
  | succ n ih =>
    intro flags esc args hlen hflags hargs hlflag
    cases flags with
    | nil => exact ih [] esc args (Nat.zero_le n) hflags hargs hlflag
    | cons f flags =>
      obtain ⟨digits, rest, esc₁, args₁, rfl, hpass⟩ :=
        passes_flag (hflags f List.mem_cons_self) hch flags esc hargs hlflag
      rw [List.length_cons, List.length_append] at hlen
      obtain ⟨esc', args', hmore, hesc', hrun⟩ := ih rest esc₁ args₁ (by omega)
        (fun x hx => hflags x (List.mem_cons_of_mem f (List.mem_append_right digits hx)))
        hpass.supplied hpass.lflag
      refine ⟨esc', args', hmore, hesc'.trans hpass.longs, fun fuel before after hfuel => ?_⟩
      rw [List.length_cons, List.length_append] at hfuel
      obtain ⟨fuel, rfl⟩ : ∃ k, fuel = k + 1 := ⟨fuel - 1, by omega⟩
      have hstep := hpass.step fuel before after
      rw [List.cons_append] at hstep
      rw [hstep, hrun fuel _ _ (by omega)]
      simp

/-! ## 4. Text -/

theorem literal_append {x : List UInt8} (hx : ∀ b ∈ x, b ≠ chr '%' ∧ b ≠ 0)
    (before after : List UInt8) :
    literal before (x ++ after) =
      (literal (x.reverse ++ before) after).map fun r => (literally x ++ r.1, r.2) := by
  induction x generalizing before with
  | nil => simp [literally]
  | cons b x ih =>
    obtain ⟨hpercent, hnul⟩ := hx b List.mem_cons_self
    rw [List.cons_append, literal, if_neg hpercent, if_neg hnul,
      ih fun c hc => hx c (List.mem_cons_of_mem b hc)]
    simp [literally, Option.map_map, Function.comp_def]

theorem vprintfmt_append (lib : Library) {x : List UInt8} (hx : ∀ b ∈ x, b ≠ chr '%' ∧ b ≠ 0)
    (fuel : Nat) (args : List Arg) (before after : List UInt8) :
    vprintfmt lib fuel args ⟨before, x ++ after⟩ =
      (vprintfmt lib fuel args ⟨x.reverse ++ before, after⟩).map (literally x ++ ·) := by
  cases fuel with
  | zero => rfl
  | succ fuel =>
    unfold vprintfmt
    rw [literal_append hx]
    cases literal (x.reverse ++ before) after with
    | none => rfl
    | some r =>
      obtain ⟨text, next⟩ := r
      cases next with
      | none => rfl
      | some c =>
        simp only [Option.map_some, Option.bind_eq_bind, Option.bind_some, Option.map_bind]
        congr 1
        funext ⟨conv, esc, args, c⟩
        cases conv <;>
          simp only [Function.comp_def, Option.map_bind, Option.map_some, List.append_assoc]

theorem rewind_append {y : List UInt8} (hy : ∀ b ∈ y, b ≠ chr '%') (before after : List UInt8) :
    rewind (y ++ chr '%' :: before) after = some ⟨chr '%' :: before, y.reverse ++ after⟩ := by
  induction y generalizing after with
  | nil => simp [rewind]
  | cons b y ih =>
    rw [List.cons_append, rewind, if_neg (hy b List.mem_cons_self),
      ih fun c hc => hy c (List.mem_cons_of_mem b hc)]
    simp

theorem isFlag_ne {f : UInt8} (hf : isFlag f = true) : f ≠ chr '%' ∧ f ≠ 0 := by
  constructor
  · rintro rfl
    exact absurd hf (by decide)
  · rintro rfl
    exact absurd hf (by decide)

/-! ## 5. Escape sequences -/

section Escapes

variable {flags : List UInt8} {ch : UInt8}

/-- A sequence that is not recognised, at the NUL or before: its `%` is put out, and the rest is read
again as text. -/
theorem vprintfmt_unknown (hflags : ∀ f ∈ flags, isFlag f = true) (hch : isFlag ch = false)
    (hconv : conversion ch = none) (hargs : args.map Arg.kind = stars flags ++ more) :
    ∃ args', args'.map Arg.kind = more ∧
      (Piece.escape flags ch).render lib args = some (literally (chr '%' :: flags ++ [ch]), args') ∧
      ∀ fuel before after, flags.length < fuel →
        vprintfmt lib (fuel + 1) args ⟨before, chr '%' :: flags ++ ch :: after⟩ =
          (vprintfmt lib fuel args' ⟨chr '%' :: before, flags ++ ch :: after⟩).map
            (literally [chr '%'] ++ ·) := by
  obtain ⟨esc', args', hmore, _, hrun⟩ :=
    reswitch_flags hch flags.length flags {} args le_rfl hflags hargs rfl
  refine ⟨args', hmore, ?_, fun fuel before after hfuel => ?_⟩
  · simp [Piece.render, hrun (flags.length + 1) [] [] (by omega), hconv]
  · have hback := rewind_append
      (fun f hf => (isFlag_ne (hflags f (List.mem_reverse.mp hf))).1) before (ch :: after)
    rw [List.reverse_reverse] at hback
    rw [vprintfmt, List.cons_append, literal, if_pos rfl, Option.map_eq_bind]
    simp only [Option.bind_eq_bind, Option.bind_some, hrun fuel _ _ hfuel, hconv, Cursor.unread,
      hback]
    rfl

theorem vprintfmt_convert {conv : Conversion} (hflags : ∀ f ∈ flags, isFlag f = true)
    (hch : isFlag ch = false) (hconv : conversion ch = some conv)
    (hargs : args.map Arg.kind =
      stars flags ++ (conv.wants lib (toInt (flags.countP isLong)) ++ more)) :
    ∃ shown args', args'.map Arg.kind = more ∧
      (Piece.escape flags ch).render lib args = some (shown, args') ∧
      ∀ fuel before after, flags.length < fuel →
        vprintfmt lib (fuel + 1) args ⟨before, chr '%' :: flags ++ ch :: after⟩ =
          (vprintfmt lib fuel args' ⟨ch :: (flags.reverse ++ chr '%' :: before), after⟩).map
            (shown ++ ·) := by
  obtain ⟨esc', args₁, hmore₁, hlflag, hrun⟩ :=
    reswitch_flags hch flags.length flags {} args le_rfl hflags hargs rfl
  rw [Int.zero_add] at hlflag
  obtain ⟨⟨shown, args'⟩, hshown, hmore⟩ := convert_of_wants (hlflag ▸ hmore₁)
  refine ⟨shown, args', hmore, ?_, fun fuel before after hfuel => ?_⟩
  · simp [Piece.render, hrun (flags.length + 1) [] [] (by omega), hconv, hshown]
  · rw [vprintfmt, List.cons_append, literal, if_pos rfl, Option.map_eq_bind]
    simp only [Option.bind_eq_bind, Option.bind_some, hrun fuel _ _ hfuel, hconv, hshown]
    rfl

end Escapes

/-! ## 6. Whole format strings -/

def Incomplete (tail : List UInt8) : Prop :=
  ∃ flags, tail = chr '%' :: flags ∧ ∀ f ∈ flags, isFlag f = true

/-- The format is made of the pieces and of what is left over at its end. -/
structure Spelled (fmt : List UInt8) (pieces : List Piece) (tail : List UInt8) : Prop where
  bytes : fmt = pieces.flatMap Piece.bytes ++ tail
  wf : ∀ p ∈ pieces, p.WF
  ending : tail = [] ∨ Incomplete tail

theorem exists_spelled (n : Nat) : ∀ fmt : List UInt8, fmt.length ≤ n → 0 ∉ fmt →
    ∃ pieces tail, Spelled fmt pieces tail := by
  -- on the length, since a sequence takes several bytes
  induction n with
  | zero =>
    intro fmt hlen _
    exact ⟨[], [], List.length_eq_zero_iff.mp (Nat.le_zero.mp hlen), by simp, Or.inl rfl⟩
  | succ n ih =>
    intro fmt hlen hnul
    cases fmt with
    | nil => exact ih [] (Nat.zero_le n) hnul
    | cons b rest =>
      rw [List.mem_cons, not_or] at hnul
      rw [List.length_cons] at hlen
      by_cases hb : b = chr '%'
      · subst hb
        have hsplit : rest.takeWhile isFlag ++ rest.dropWhile isFlag = rest :=
          List.takeWhile_append_dropWhile
        have hflags : ∀ f ∈ rest.takeWhile isFlag, isFlag f = true :=
          fun f hf => List.mem_takeWhile_imp hf
        cases hdrop : rest.dropWhile isFlag with
        | nil =>
          rw [hdrop, List.append_nil] at hsplit
          exact ⟨[], chr '%' :: rest, rfl, by simp, Or.inr ⟨rest, rfl, hsplit ▸ hflags⟩⟩
        | cons ch after =>
          rw [hdrop] at hsplit
          have hch : isFlag ch = false := by
            have hhead := List.head?_dropWhile_not isFlag rest
            rw [hdrop] at hhead
            simpa using hhead
          have hmem : ∀ x ∈ ch :: after, x ∈ rest :=
            fun x hx => hsplit ▸ List.mem_append_right _ hx
          have hlen' : (rest.takeWhile isFlag).length + (after.length + 1) = rest.length := by
            rw [← List.length_cons, ← List.length_append, hsplit]
          obtain ⟨pieces, tail, hafter, hwf, htail⟩ := ih after (by omega)
            fun h0 => hnul.2 (hmem 0 (List.mem_cons_of_mem ch h0))
          refine ⟨.escape (rest.takeWhile isFlag) ch :: pieces, tail, ?_, ?_, htail⟩
          · rw [List.flatMap_cons, List.append_assoc, ← hafter]
            simp [Piece.bytes, hsplit]
          · rintro p (_ | ⟨_, hp⟩)
            · exact ⟨hflags, hch, fun h0 => hnul.2 (h0 ▸ hmem ch List.mem_cons_self)⟩
            · exact hwf p hp
      · obtain ⟨pieces, tail, rfl, hwf, htail⟩ := ih rest (by omega) hnul.2
        refine ⟨.text b :: pieces, tail, rfl, ?_, htail⟩
        rintro p (_ | ⟨_, hp⟩)
        · exact ⟨hb, Ne.symm hnul.1⟩
        · exact hwf p hp

theorem vprintfmt_nul {fuel : Nat} (hfuel : 0 < fuel) (args : List Arg) (before : List UInt8) :
    vprintfmt lib fuel args ⟨before, [0]⟩ = some [] := by
  obtain ⟨fuel, rfl⟩ : ∃ k, fuel = k + 1 := ⟨fuel - 1, by omega⟩
  rfl

theorem vprintfmt_tail {tail : List UInt8} (htail : tail = [] ∨ Incomplete tail)
    (hargs : args.map Arg.kind = stars tail ++ more) {fuel : Nat} (hfuel : tail.length < fuel)
    (before : List UInt8) :
    vprintfmt lib fuel args ⟨before, tail ++ [0]⟩ = some (literally tail) := by
  rcases htail with rfl | ⟨flags, rfl, hflags⟩
  · exact vprintfmt_nul hfuel args before
  · have hargs : args.map Arg.kind = stars flags ++ more := hargs
    obtain ⟨args', _, _, hrun⟩ :=
      vprintfmt_unknown hflags (by decide : isFlag 0 = false) (by rfl) hargs
    rw [List.length_cons] at hfuel
    obtain ⟨fuel, rfl⟩ : ∃ k, fuel = k + 1 := ⟨fuel - 1, by omega⟩
    rw [hrun fuel before [] (by omega), vprintfmt_append lib fun f hf => isFlag_ne (hflags f hf),
      vprintfmt_nul (by omega)]
    simp [literally]

theorem vprintfmt_piece {p : Piece} (hp : p.WF) (hargs : args.map Arg.kind = p.wants lib ++ more) :
    ∃ shown args', args'.map Arg.kind = more ∧ p.render lib args = some (shown, args') ∧
      ∀ n out after,
        (∀ fuel before, n < fuel → vprintfmt lib fuel args' ⟨before, after⟩ = some out) →
        ∀ fuel before, p.bytes.length + n < fuel →
          vprintfmt lib fuel args ⟨before, p.bytes ++ after⟩ = some (shown ++ out) := by
  cases p with
  | text b =>
    refine ⟨literally [b], args, hargs, rfl, fun n out after hout fuel before hfuel => ?_⟩
    have hb : ∀ c ∈ [b], c ≠ chr '%' ∧ c ≠ 0 := fun c hc => List.mem_singleton.mp hc ▸ hp
    rw [Piece.bytes, vprintfmt_append lib hb, hout fuel _ (by omega), Option.map_some]
  | escape flags ch =>
    obtain ⟨hflags, hch, hnul⟩ := hp
    have hlen : (Piece.escape flags ch).bytes.length = flags.length + 2 := by simp [Piece.bytes]
    have hbytes : ∀ after, (Piece.escape flags ch).bytes ++ after =
        chr '%' :: flags ++ ch :: after := by simp [Piece.bytes]
    rw [Piece.wants, List.append_assoc] at hargs
    cases hconv : conversion ch with
    | none =>
      rw [hconv] at hargs
      obtain ⟨args', hmore, hrender, hstep⟩ := vprintfmt_unknown hflags hch hconv hargs
      refine ⟨_, args', hmore, hrender, fun n out after hout fuel before hfuel => ?_⟩
      obtain ⟨fuel, rfl⟩ : ∃ k, fuel = k + 1 := ⟨fuel - 1, by omega⟩
      have htext : ∀ b ∈ flags ++ [ch], b ≠ chr '%' ∧ b ≠ 0 := by
        intro b hb
        rcases List.mem_append.mp hb with hb | hb
        · exact isFlag_ne (hflags b hb)
        · obtain rfl := List.mem_singleton.mp hb
          refine ⟨?_, hnul⟩
          rintro rfl
          exact absurd hconv (by decide)
      have happ := vprintfmt_append lib htext fuel args' (chr '%' :: before) after
      rw [List.append_assoc, List.singleton_append, hout fuel _ (by omega)] at happ
      rw [hbytes, hstep fuel before after (by omega), happ]
      simp [literally]
    | some conv =>
      rw [hconv] at hargs
      obtain ⟨shown, args', hmore, hrender, hstep⟩ := vprintfmt_convert hflags hch hconv hargs
      refine ⟨shown, args', hmore, hrender, fun n out after hout fuel before hfuel => ?_⟩
      obtain ⟨fuel, rfl⟩ : ∃ k, fuel = k + 1 := ⟨fuel - 1, by omega⟩
      rw [hbytes, hstep fuel before after (by omega), hout fuel _ (by omega), Option.map_some]

theorem vprintfmt_pieces {pieces : List Piece} {tail : List UInt8} (hwf : ∀ p ∈ pieces, p.WF)
    (htail : tail = [] ∨ Incomplete tail)
    (hargs : args.map Arg.kind = pieces.flatMap (Piece.wants lib) ++ (stars tail ++ more)) :
    ∃ out, render lib pieces args = some out ∧ ∀ fuel before,
      (pieces.flatMap Piece.bytes ++ tail).length < fuel →
        vprintfmt lib fuel args ⟨before, pieces.flatMap Piece.bytes ++ tail ++ [0]⟩ =
          some (out ++ literally tail) := by
  induction pieces generalizing args with
  | nil => exact ⟨[], rfl, fun fuel before hfuel => vprintfmt_tail htail hargs hfuel before⟩
  | cons p pieces ih =>
    rw [List.flatMap_cons, List.append_assoc] at hargs
    obtain ⟨shown, args', hmore, hrender, hpiece⟩ :=
      vprintfmt_piece (hwf p List.mem_cons_self) hargs
    obtain ⟨out, hout, hrun⟩ := ih (fun q hq => hwf q (List.mem_cons_of_mem p hq)) hmore
    refine ⟨shown ++ out, by simp [render, hrender, hout], fun fuel before hfuel => ?_⟩
    rw [List.flatMap_cons, List.append_assoc, List.length_append] at hfuel
    have hall := hpiece _ _ _ hrun fuel before hfuel
    simpa [List.flatMap_cons, List.append_assoc] using hall

/-- **Scanning.**  Every format string is spelled by pieces and an incomplete sequence at its end or
nothing.  With arguments of the types that they take, `vprintfmt` returns, without a read past the
NUL, and puts out the pieces one after the other, where those that are not recognised stand for
themselves, and the incomplete sequence literally. -/
theorem vprintfmt_scans (lib : Library) (fmt : List UInt8) (hnul : 0 ∉ fmt) :
    ∃ pieces tail, Spelled fmt pieces tail ∧
      ∀ args, pieces.flatMap (Piece.wants lib) ++ stars tail <+: args.map Arg.kind →
        ∃ out, render lib pieces args = some out ∧ ∀ fuel, fmt.length < fuel →
          vprintfmt lib fuel args ⟨[], fmt ++ [0]⟩ = some (out ++ literally tail) := by
  obtain ⟨pieces, tail, hspelled⟩ := exists_spelled fmt.length fmt le_rfl hnul
  refine ⟨pieces, tail, hspelled, fun args hargs => ?_⟩
  obtain ⟨more, hmore⟩ := hargs
  rw [List.append_assoc] at hmore
  obtain ⟨out, hout, hrun⟩ := vprintfmt_pieces hspelled.wf hspelled.ending hmore.symm
  refine ⟨out, hout, fun fuel hfuel => ?_⟩
  have hall := hrun fuel []
  rw [← hspelled.bytes] at hall
  exact hall hfuel

def percents : List UInt8 := "5%-3q%l".toList.map chr

theorem vprintfmt_scans_percents : 0 ∉ percents ∧ ∃ pieces tail, Spelled percents pieces tail ∧
    ∀ args, pieces.flatMap (Piece.wants .kern) ++ stars tail <+: args.map Arg.kind →
      ∃ out, render .kern pieces args = some out ∧ ∀ fuel, percents.length < fuel →
        vprintfmt .kern fuel args ⟨[], percents ++ [0]⟩ = some (out ++ literally tail) :=
  ⟨by decide, vprintfmt_scans .kern percents (by decide)⟩

example : vprintfmt .kern 8 [] ⟨[], percents ++ [0]⟩ = some (literally percents) := by
  decide

end MCertiKOS.Printfmt
