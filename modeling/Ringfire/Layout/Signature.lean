import Ringfire.Layout.Geometry

/-!
# The layout signature of a type

A producer writes a fingerprint of its type into the header of the ring, and a reader compares it
with the one of its own type. The fingerprint is a hash of the name of the type, without module
paths, of its size and of its alignment. `short_type_name` takes the paths out of the name in one
pass over its characters, with one pending identifier.

`type_name` prints a type; the names considered here are those of paths with optional generic
arguments, tuples, arrays, slices, references and pointers. Which characters beyond ASCII are
alphanumeric is a table of the standard library, here the parameter `beyond`.

## Main definitions

* `TypeExpr`, `TypeExpr.print`: the types and their names
* `TypeExpr.stripped`: every path cut to its last segment
* `shortTypeName`, `fnv1a64`, `computeLayoutSignature`, `checkSchema`

## Main results

* `TypeExpr.shortTypeName_print`: the scanner prints the stripped type
* `schema_checked`: a type is known again under another path and on a mirror, and refused when its
  layout has changed in one byte
-/

namespace Ringfire

namespace Layout

open LittleEndian

variable {beyond : Char → Bool}

/-! ## Identifiers and types -/

/-- `char::is_alphanumeric`: ASCII by its ranges, and the rest by the table. -/
def isAlphanumeric (beyond : Char → Bool) (c : Char) : Bool :=
  if c ≤ '\x7f' then c.isAlphanum else beyond c

/-- The characters of identifiers: the first test of the loop of `short_type_name`. -/
def isIdentChar (beyond : Char → Bool) (c : Char) : Bool :=
  isAlphanumeric beyond c || c == '_'

/-- An identifier. -/
structure Ident (beyond : Char → Bool) where
  chars : List Char
  isIdent : ∀ c ∈ chars, isIdentChar beyond c

/-- A type, as far as its name tells. A path without generic arguments has `args = []`. -/
inductive TypeExpr (beyond : Char → Bool) where
  | path (modules : List (Ident beyond)) (name : Ident beyond) (args : List (TypeExpr beyond))
  | tuple (elems : List (TypeExpr beyond))
  | array (elem : TypeExpr beyond) (len : ℕ)
  | slice (elem : TypeExpr beyond)
  | ref (mutable : Bool) (target : TypeExpr beyond)
  | ptr (mutable : Bool) (target : TypeExpr beyond)

/-- The modules of a path, each with the `::` behind it. -/
def modulesChars : List (Ident beyond) → List Char
  | [] => []
  | m :: ms => m.chars ++ ':' :: ':' :: modulesChars ms

namespace TypeExpr

mutual

/-- The characters of a printed type. -/
def chars : TypeExpr beyond → List Char
  | path modules name args =>
    modulesChars modules ++
      if args.isEmpty then name.chars else name.chars ++ '<' :: (commaSeparated args ++ ['>'])
  | tuple elems =>
    '(' :: (commaSeparated elems ++ if elems.length = 1 then [',', ')'] else [')'])
  | array elem len => '[' :: (elem.chars ++ ';' :: ' ' :: (Nat.toDigits 10 len ++ [']']))
  | slice elem => '[' :: (elem.chars ++ [']'])
  | ref mutable target =>
    '&' :: if mutable then "mut".toList ++ ' ' :: target.chars else target.chars
  | ptr mutable target =>
    '*' :: ((if mutable then "mut" else "const").toList ++ ' ' :: target.chars)

/-- The characters of printed types, with commas between them. -/
def commaSeparated : List (TypeExpr beyond) → List Char
  | [] => []
  | t :: ts => if ts.isEmpty then t.chars else t.chars ++ ',' :: ' ' :: commaSeparated ts

end

/-- What `type_name` prints. -/
def print (t : TypeExpr beyond) : String := String.ofList t.chars

mutual

/-- The type with every path replaced by its last segment. -/
def stripped : TypeExpr beyond → TypeExpr beyond
  | path _ name args => path [] name (strippedList args)
  | tuple elems => tuple (strippedList elems)
  | array elem len => array elem.stripped len
  | slice elem => slice elem.stripped
  | ref mutable target => ref mutable target.stripped
  | ptr mutable target => ptr mutable target.stripped

/-- `stripped` of every type of a list. -/
def strippedList : List (TypeExpr beyond) → List (TypeExpr beyond)
  | [] => []
  | t :: ts => t.stripped :: strippedList ts

end

@[simp] theorem length_strippedList (ts : List (TypeExpr beyond)) :
    (strippedList ts).length = ts.length := by
  induction ts with
  | nil => rfl
  | cons t ts ih => rw [strippedList, List.length_cons, List.length_cons, ih]

@[simp] theorem isEmpty_strippedList (ts : List (TypeExpr beyond)) :
    (strippedList ts).isEmpty = ts.isEmpty := by
  cases ts <;> rfl

end TypeExpr

/-! ## The scanner -/

/-- The loop of `short_type_name`: the characters to come, what is written and the identifier that
is pending. -/
def shortTypeNameLoop (beyond : Char → Bool) : List Char → List Char → List Char → List Char
  | [], out, ident => out ++ ident
  | c :: rest, out, ident =>
    if isIdentChar beyond c then shortTypeNameLoop beyond rest out (ident ++ [c])
    else
      match c, rest with
      | ':', ':' :: rest => shortTypeNameLoop beyond rest out []
      | c, rest => shortTypeNameLoop beyond rest (out ++ ident ++ [c]) []

/-- `short_type_name`. -/
def shortTypeName (beyond : Char → Bool) (full : String) : String :=
  String.ofList (shortTypeNameLoop beyond full.toList [] [])

/-! ## What the scanner does with a part of a name -/

section Scanner

variable {c : Char} {w r out ident : List Char}

/-- The rest of a name does not go on with the identifier before it, and is no path separator. -/
def Closed (beyond : Char → Bool) (r : List Char) : Prop :=
  ∀ c ∈ r.head?, isIdentChar beyond c = false ∧ c ≠ ':'

theorem closed_cons : Closed beyond (c :: r) ↔ isIdentChar beyond c = false ∧ c ≠ ':' := by
  simp [Closed]

theorem isIdentChar_colon : isIdentChar beyond ':' = false := by
  simp [isIdentChar, isAlphanumeric]

/-- An identifier is collected. -/
theorem loop_ident (hw : ∀ c ∈ w, isIdentChar beyond c) :
    shortTypeNameLoop beyond (w ++ r) out ident = shortTypeNameLoop beyond r out (ident ++ w) := by
  induction w generalizing ident with
  | nil => simp
  | cons c w ih =>
    have hc : isIdentChar beyond c = true := hw c List.mem_cons_self
    have hsep : c ≠ ':' := by
      rintro rfl
      exact absurd hc (by simp [isIdentChar_colon])
    have htail : ∀ c ∈ w, isIdentChar beyond c := fun c hmem => hw c (List.mem_cons_of_mem _ hmem)
    rw [List.cons_append, shortTypeNameLoop, if_pos hc, ih htail, List.append_assoc,
      List.singleton_append]
    exact fun rest h => absurd h hsep

/-- A path separator drops what is pending. -/
theorem loop_separator :
    shortTypeNameLoop beyond (':' :: ':' :: r) out ident = shortTypeNameLoop beyond r out [] := by
  rw [shortTypeNameLoop, isIdentChar_colon, if_neg Bool.false_ne_true]

/-- Any other character writes what is pending, and itself. -/
theorem loop_other (hc : isIdentChar beyond c = false) (hsep : c ≠ ':') :
    shortTypeNameLoop beyond (c :: r) out ident =
      shortTypeNameLoop beyond r (out ++ ident ++ [c]) [] := by
  rw [shortTypeNameLoop, hc, if_neg Bool.false_ne_true]
  exact fun rest h => absurd h hsep

/-- The end of an identifier writes it. -/
theorem loop_flush (hr : Closed beyond r) :
    shortTypeNameLoop beyond r out ident = shortTypeNameLoop beyond r (out ++ ident) [] := by
  cases r with
  | nil => simp [shortTypeNameLoop]
  | cons c r =>
    obtain ⟨hc, hsep⟩ := closed_cons.mp hr
    rw [loop_other hc hsep, loop_other hc hsep, List.append_nil]

/-- The modules of a path leave nothing. -/
theorem loop_modules (ms : List (Ident beyond)) :
    shortTypeNameLoop beyond (modulesChars ms ++ r) out [] = shortTypeNameLoop beyond r out [] := by
  induction ms with
  | nil => rfl
  | cons m ms ih =>
    rw [modulesChars, List.append_assoc, loop_ident m.isIdent, List.cons_append, List.cons_append,
      loop_separator, ih]

/-- The characters of a printed type that are in no identifier and no path. -/
def punctuation : List Char := ['<', '>', '(', ')', '[', ']', '&', '*', ',', ';', ' ']

theorem not_isIdentChar_of_mem_punctuation (hc : c ∈ punctuation) :
    isIdentChar beyond c = false ∧ c ≠ ':' := by
  simp only [punctuation, List.mem_cons, List.not_mem_nil, or_false] at hc
  obtain rfl | rfl | rfl | rfl | rfl | rfl | rfl | rfl | rfl | rfl | rfl := hc <;>
    simp [isIdentChar, isAlphanumeric]

theorem closed_punctuation (hc : c ∈ punctuation) : Closed beyond (c :: r) :=
  closed_cons.mpr (not_isIdentChar_of_mem_punctuation hc)

theorem isIdentChar_of_isDigit (hc : c.isDigit) : isIdentChar beyond c := by
  have hnine : c ≤ '9' := by
    simp only [Char.isDigit, Bool.and_eq_true, decide_eq_true_eq] at hc
    exact hc.2
  have hascii : c ≤ '\x7f' := Char.le_trans hnine (by decide)
  simp [isIdentChar, isAlphanumeric, hascii, Char.isAlphanum, hc]

end Scanner

/-! ## Text that the scanner rewrites -/

/-- The scanner writes `w'` for `w`, wherever `w` stands with no identifier pending. -/
def ScansTo (beyond : Char → Bool) (w w' : List Char) : Prop :=
  ∀ ⦃r : List Char⦄, Closed beyond r → ∀ out : List Char,
    shortTypeNameLoop beyond (w ++ r) out [] = shortTypeNameLoop beyond r (out ++ w') []

namespace ScansTo

variable {c : Char} {v v' w w' : List Char}

theorem nil : ScansTo beyond [] [] := by
  intro r _ out
  rw [List.nil_append, List.append_nil]

/-- Identifiers that are no modules stay. -/
theorem word (hw : ∀ c ∈ w, isIdentChar beyond c) : ScansTo beyond w w := by
  intro r hr out
  rw [loop_ident hw, List.nil_append, loop_flush hr]

/-- Punctuation stays. -/
theorem cons (hc : c ∈ punctuation) (h : ScansTo beyond w w') :
    ScansTo beyond (c :: w) (c :: w') := by
  intro r hr out
  obtain ⟨hident, hsep⟩ : isIdentChar beyond c = false ∧ c ≠ ':' :=
    not_isIdentChar_of_mem_punctuation hc
  rw [List.cons_append, loop_other hident hsep, h hr, List.append_nil, List.append_assoc,
    List.singleton_append]

/-- Punctuation ends the text before it. -/
theorem append_cons (hv : ScansTo beyond v v') (hc : c ∈ punctuation) (h : ScansTo beyond w w') :
    ScansTo beyond (v ++ c :: w) (v' ++ c :: w') := by
  intro r hr out
  have hclosed : Closed beyond (c :: w ++ r) := closed_punctuation hc
  rw [List.append_assoc, hv hclosed, cons hc h hr, List.append_assoc]

theorem snoc (hv : ScansTo beyond v v') (hc : c ∈ punctuation) :
    ScansTo beyond (v ++ [c]) (v' ++ [c]) :=
  hv.append_cons hc nil

/-- The modules of a path go. -/
theorem modules (h : ScansTo beyond w w') (ms : List (Ident beyond)) :
    ScansTo beyond (modulesChars ms ++ w) w' := by
  intro r hr out
  rw [List.append_assoc, loop_modules, h hr]

end ScansTo

namespace TypeExpr

mutual

/-- The scanner on a type writes the stripped type. -/
theorem scansTo_stripped : ∀ t : TypeExpr beyond, ScansTo beyond t.chars t.stripped.chars
  | path modules name args => by
    rw [stripped, chars, chars, isEmpty_strippedList, modulesChars, List.nil_append]
    refine ScansTo.modules ?_ modules
    by_cases hargs : args.isEmpty
    · rw [if_pos hargs, if_pos hargs]
      exact ScansTo.word name.isIdent
    · rw [if_neg hargs, if_neg hargs]
      exact (ScansTo.word name.isIdent).append_cons (by decide)
        ((scansTo_strippedList args).snoc (by decide))
  | tuple elems => by
    rw [stripped, chars, chars, length_strippedList]
    refine ScansTo.cons (by decide) ?_
    by_cases hone : elems.length = 1
    · rw [if_pos hone]
      exact (scansTo_strippedList elems).append_cons (by decide) (ScansTo.nil.cons (by decide))
    · rw [if_neg hone]
      exact (scansTo_strippedList elems).snoc (by decide)
  | array elem len => by
    rw [stripped, chars, chars]
    have hdigits : ∀ c ∈ Nat.toDigits 10 len, isIdentChar beyond c := fun c hc =>
      isIdentChar_of_isDigit (Nat.isDigit_of_mem_toDigits (by decide) (by decide) hc)
    have hlen : ScansTo beyond (Nat.toDigits 10 len ++ [']']) (Nat.toDigits 10 len ++ [']']) :=
      (ScansTo.word hdigits).snoc (by decide)
    exact ((scansTo_stripped elem).append_cons (by decide) (hlen.cons (by decide))).cons (by decide)
  | slice elem => by
    rw [stripped, chars, chars]
    exact ((scansTo_stripped elem).snoc (by decide)).cons (by decide)
  | ref mutable target => by
    rw [stripped, chars, chars]
    refine ScansTo.cons (by decide) ?_
    cases mutable with
    | false => exact scansTo_stripped target
    | true =>
      have hmut : ScansTo beyond "mut".toList "mut".toList :=
        ScansTo.word (by simp [isIdentChar, isAlphanumeric])
      exact hmut.append_cons (by decide) (scansTo_stripped target)
  | ptr mutable target => by
    rw [stripped, chars, chars]
    have hkeyword : ScansTo beyond (if mutable then "mut" else "const").toList
        (if mutable then "mut" else "const").toList :=
      ScansTo.word (by cases mutable <;> simp [isIdentChar, isAlphanumeric])
    exact (hkeyword.append_cons (by decide) (scansTo_stripped target)).cons (by decide)

/-- The scanner on a list of types writes the stripped types. -/
theorem scansTo_strippedList : ∀ ts : List (TypeExpr beyond),
    ScansTo beyond (commaSeparated ts) (commaSeparated (strippedList ts))
  | [] => by
    rw [strippedList, commaSeparated]
    exact ScansTo.nil
  | t :: ts => by
    rw [strippedList, commaSeparated, commaSeparated, isEmpty_strippedList]
    by_cases hts : ts.isEmpty
    · rw [if_pos hts, if_pos hts]
      exact scansTo_stripped t
    · rw [if_neg hts, if_neg hts]
      exact (scansTo_stripped t).append_cons (by decide)
        ((scansTo_strippedList ts).cons (by decide))

end

theorem shortTypeName_eq (t : TypeExpr beyond) :
    shortTypeName beyond t.print = t.stripped.print := by
  have hscan : shortTypeNameLoop beyond t.chars [] [] = t.stripped.chars := by
    have h := t.scansTo_stripped (r := []) (by simp [Closed]) []
    rwa [List.append_nil, List.nil_append, shortTypeNameLoop, List.append_nil] at h
  rw [shortTypeName, print, String.toList_ofList, hscan, print]

/-- **Module paths do not affect the name.** `short_type_name` prints the stripped type. Types that
differ in module paths only have one name, and types that print differently without their paths
have two. -/
theorem shortTypeName_print (beyond : Char → Bool) :
    (∀ t : TypeExpr beyond, shortTypeName beyond t.print = t.stripped.print) ∧
      (∀ t u : TypeExpr beyond, t.stripped = u.stripped →
        shortTypeName beyond t.print = shortTypeName beyond u.print) ∧
      ∀ t u : TypeExpr beyond, t.stripped.print ≠ u.stripped.print →
        shortTypeName beyond t.print ≠ shortTypeName beyond u.print := by
  have hprint : ∀ t : TypeExpr beyond, shortTypeName beyond t.print = t.stripped.print :=
    shortTypeName_eq
  refine ⟨hprint, fun t u htu => ?_, fun t u htu => ?_⟩
  · rw [hprint, hprint, htu]
  · rw [hprint, hprint]
    exact htu

example : shortTypeName (fun _ => false) "alloc::vec::Vec<core::option::Option<my::T>>" =
    "Vec<Option<T>>" := by
  decide +kernel

end TypeExpr

/-! ## The signature -/

/-- One round of `fnv1a64`. -/
def fnvStep (hash : UInt64) (byte : UInt8) : UInt64 :=
  (hash ^^^ byte.toUInt64) * 0x100000001b3

/-- `fnv1a64`. -/
def fnv1a64 (bytes : List UInt8) : UInt64 :=
  bytes.foldl fnvStep 0xcbf29ce484222325

/-- `compute_layout_signature` of a type that `type_name` prints so, with its size and alignment. -/
def computeLayoutSignature (beyond : Char → Bool) (typeName : String) (layout : TypeLayout) :
    UInt64 :=
  fnv1a64 ((shortTypeName beyond typeName).toUTF8.toList ++ toLe 8 layout.size ++
    toLe 8 layout.align)

/-- The error `SchemaMismatch`. -/
structure SchemaMismatch where
  expected : ℕ
  actual : ℕ
  typeName : String
  deriving DecidableEq

/-- `check_schema`. -/
def checkSchema (header : RingHeader) (expected : ℕ) (typeName : String) :
    Except SchemaMismatch Unit :=
  if header.schemaSig ≠ 0 ∧ header.schemaSig ≠ expected then
    .error { expected := header.schemaSig, actual := expected, typeName := typeName }
  else
    .ok ()

/-- Which headers a reader accepts. -/
theorem checkSchema_eq_ok {header : RingHeader} {expected : ℕ} {typeName : String} :
    checkSchema header expected typeName = .ok () ↔
      header.schemaSig = 0 ∨ header.schemaSig = expected := by
  rw [checkSchema]
  by_cases hmismatch : header.schemaSig ≠ 0 ∧ header.schemaSig ≠ expected
  · rw [if_pos hmismatch]
    simpa using hmismatch
  · rw [if_neg hmismatch]
    simpa [or_iff_not_imp_left] using hmismatch

/-- The multiplier of the hash is odd, so it has an inverse. -/
theorem mul_fnvPrime_injective : Function.Injective fun hash : UInt64 => hash * 0x100000001b3 := by
  intro hash hash' heq
  have hinverse : (0x100000001b3 : UInt64) * 0xce965057aff6957b = 1 := by decide
  have hmul := congrArg (· * (0xce965057aff6957b : UInt64)) heq
  simpa only [UInt64.mul_assoc, hinverse, UInt64.mul_one] using hmul

/-- No round forgets what came before it. -/
theorem fnvStep_left_injective (byte : UInt8) : Function.Injective fun hash => fnvStep hash byte :=
  fun _ _ heq => (UInt64.xor_left_inj _).mp (mul_fnvPrime_injective heq)

/-- No round ignores its byte. -/
theorem fnvStep_right_injective (hash : UInt64) : Function.Injective (fnvStep hash) :=
  fun _ _ heq => UInt8.toUInt64_inj.mp ((UInt64.xor_right_inj _).mp (mul_fnvPrime_injective heq))

theorem foldl_fnvStep_injective (bytes : List UInt8) :
    Function.Injective fun hash => bytes.foldl fnvStep hash := by
  induction bytes with
  | nil => exact fun _ _ heq => heq
  | cons byte bytes ih =>
    intro hash hash' heq
    exact fnvStep_left_injective byte (ih heq)

/-- Texts that differ in one byte have different hashes. -/
theorem fnv1a64_inj_byte {a b : UInt8} (before after : List UInt8) :
    fnv1a64 (before ++ a :: after) = fnv1a64 (before ++ b :: after) ↔ a = b := by
  refine ⟨fun heq => ?_, fun hab => by rw [hab]⟩
  rw [fnv1a64, fnv1a64, List.foldl_append, List.foldl_append, List.foldl_cons,
    List.foldl_cons] at heq
  exact fnvStep_right_injective _ (foldl_fnvStep_injective after heq)

section Schema

variable {header : RingHeader} {t u : TypeExpr beyond} {layout layout' : TypeLayout}

/-- A reader accepts the ring of a producer that has the same type under another path. -/
theorem checkSchema_of_stripped_eq
    (hheader : header.schemaSig = (computeLayoutSignature beyond t.print layout).toNat)
    (htu : t.stripped = u.stripped) :
    checkSchema header (computeLayoutSignature beyond u.print layout).toNat u.print = .ok () := by
  rw [checkSchema_eq_ok, hheader, computeLayoutSignature, computeLayoutSignature,
    t.shortTypeName_eq, u.shortTypeName_eq, htu]
  exact Or.inr rfl

/-- The sizes differ, or the alignments, and in the last byte only. -/
def DiffersInByte (layout layout' : TypeLayout) : Prop :=
  (layout.align = layout'.align ∧ layout.size / 256 = layout'.size / 256 ∧
    layout.size ≠ layout'.size) ∨
  (layout.size = layout'.size ∧ layout.align / 256 = layout'.align / 256 ∧
    layout.align ≠ layout'.align)

/-- Layouts that differ in one byte give different signatures. -/
theorem computeLayoutSignature_ne (htu : t.stripped = u.stripped)
    (hdiffers : DiffersInByte layout layout') :
    computeLayoutSignature beyond t.print layout ≠
      computeLayoutSignature beyond u.print layout' := by
  intro heq
  have hbytes : ∀ n, toLe 8 n = UInt8.ofNat n :: toLe 7 (n / 256) := fun _ => rfl
  have hlast : ∀ {m n : ℕ}, UInt8.ofNat m = UInt8.ofNat n → m % 256 = n % 256 := by
    intro m n hmn
    simpa using congrArg UInt8.toNat hmn
  rw [computeLayoutSignature, computeLayoutSignature, t.shortTypeName_eq, u.shortTypeName_eq,
    htu] at heq
  rcases hdiffers with ⟨halign, hblock, hsize⟩ | ⟨hsize, hblock, halign⟩
  · rw [halign, hbytes layout.size, hbytes layout'.size, hblock, List.append_assoc,
      List.append_assoc, List.cons_append, List.cons_append, fnv1a64_inj_byte] at heq
    have := hlast heq
    omega
  · rw [hsize, hbytes layout.align, hbytes layout'.align, hblock, fnv1a64_inj_byte] at heq
    have := hlast heq
    omega

/-- A reader refuses the ring of a producer whose type has another layout, up to one byte, unless
the header says that it is not verified. -/
theorem checkSchema_of_differs
    (hheader : header.schemaSig = (computeLayoutSignature beyond t.print layout).toNat)
    (hverified : header.schemaSig ≠ 0) (htu : t.stripped = u.stripped)
    (hdiffers : DiffersInByte layout layout') :
    checkSchema header (computeLayoutSignature beyond u.print layout').toNat u.print =
      .error { expected := header.schemaSig
               actual := (computeLayoutSignature beyond u.print layout').toNat
               typeName := u.print } := by
  have hsig : header.schemaSig ≠ (computeLayoutSignature beyond u.print layout').toNat := by
    rw [hheader]
    exact fun heq => computeLayoutSignature_ne htu hdiffers (UInt64.toNat_inj.mp heq)
  rw [checkSchema, if_pos ⟨hverified, hsig⟩]

/-- A mirror ring carries the signature of its source: a reader is accepted at one exactly as at
the other. -/
theorem checkSchema_mirror {g : Geometry} (hheader : header.InRange)
    (haccepted : Geometry.decode (Geometry.fromHeader header header.view).encode = .ok g)
    (expected : ℕ) (typeName : String) :
    checkSchema g.mirrorLayout.header expected typeName = checkSchema header expected typeName := by
  have hrange := Geometry.fromHeader_inRange hheader
  obtain ⟨-, rfl⟩ := (Geometry.decode_encode_eq_ok hrange).mp haccepted
  rfl

end Schema

/-- **What a reader finds out about the type of a producer.** The producer left the signature of its
type in the header. A reader with the same type under another path is accepted; one whose type has
the same name and a layout that differs in one byte is refused, unless the signature happens to be
the zero of a ring that is not verified; and both fare alike at a mirror of the ring. -/
theorem schema_checked {beyond : Char → Bool} {t u : TypeExpr beyond} {layout : TypeLayout}
    {header : RingHeader}
    (hheader : header.schemaSig = (computeLayoutSignature beyond t.print layout).toNat)
    (htu : t.stripped = u.stripped) :
    checkSchema header (computeLayoutSignature beyond u.print layout).toNat u.print = .ok () ∧
    (header.schemaSig ≠ 0 → ∀ layout', DiffersInByte layout layout' →
      checkSchema header (computeLayoutSignature beyond u.print layout').toNat u.print =
        .error { expected := header.schemaSig
                 actual := (computeLayoutSignature beyond u.print layout').toNat
                 typeName := u.print }) ∧
    ∀ g, header.InRange →
      Geometry.decode (Geometry.fromHeader header header.view).encode = .ok g →
      ∀ signature typeName, checkSchema g.mirrorLayout.header signature typeName =
        checkSchema header signature typeName :=
  ⟨checkSchema_of_stripped_eq hheader htu,
    fun hverified _ hdiffers => checkSchema_of_differs hheader hverified htu hdiffers,
    fun _ hrange haccepted => checkSchema_mirror hrange haccepted⟩

/-- An identifier of one character. -/
def letter (c : Char) (h : isIdentChar (fun _ => false) c = true) : Ident fun _ => false where
  chars := [c]
  isIdent _ hc := List.mem_singleton.mp hc ▸ h

/-- The type `T` of a module. -/
def typeIn (m : Char) (h : isIdentChar (fun _ => false) m = true) : TypeExpr fun _ => false :=
  .path [letter m h] (letter 'T' rfl) []

/-- The header of a producer of `a::T`, which is one word. -/
def movedHeader : RingHeader := (ringLayout wordLayout 4 2 3890248852872508099 false).header

/-- The type moves to the module `b`, and then grows to two words. -/
theorem schema_checked_moved :
    checkSchema movedHeader
      (computeLayoutSignature (fun _ => false) "b::T" wordLayout).toNat "b::T" = .ok () ∧
    (∃ e, checkSchema movedHeader
      (computeLayoutSignature (fun _ => false) "b::T" ⟨16, 8, isPowerOfTwo_eight⟩).toNat "b::T" =
        .error e) ∧
    ∃ g, Geometry.decode (Geometry.fromHeader movedHeader movedHeader.view).encode = .ok g ∧
      ∀ signature, checkSchema g.mirrorLayout.header signature "b::T" =
        checkSchema movedHeader signature "b::T" := by
  have hheader : movedHeader.schemaSig =
      (computeLayoutSignature (fun _ => false) (typeIn 'a' rfl).print wordLayout).toNat := by
    decide +kernel
  have htu : (typeIn 'a' rfl).stripped = (typeIn 'b' rfl).stripped := rfl
  have hprint : (typeIn 'b' rfl).print = "b::T" := by decide
  have hgrown : DiffersInByte wordLayout ⟨16, 8, isPowerOfTwo_eight⟩ :=
    .inl ⟨rfl, by decide, by decide⟩
  have hrange : movedHeader.InRange :=
    ⟨by decide, by decide, by decide, by decide, by decide, by decide, by decide, by decide,
      by decide⟩
  obtain ⟨hsame, hother, hmirror⟩ := schema_checked hheader htu
  have hrefused := hother (by decide) _ hgrown
  rw [hprint] at hsame hrefused
  exact ⟨hsame, ⟨_, hrefused⟩, _, rfl, fun signature => hmirror _ hrange rfl signature _⟩

end Layout

end Ringfire
