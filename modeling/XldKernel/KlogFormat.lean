import XldKernel.KlogNumbers

/-!
# Which formats printk and klog print

A format of the kernel's callers is a list of literal characters, directives and `%%`. The
two functions do not know a directive of more than one letter and leave its argument, and
`klog` does not know `%%` either.
-/

namespace XldKernel.Klog

inductive Directive where
  | signed | unsigned | hex | string | char | longUnsigned | longHex | byteHex
  deriving DecidableEq

inductive Item where
  | lit (c : UInt8)
  | dir (d : Directive)
  | percent
  deriving DecidableEq

variable {items : List Item} {args : List Arg} {pct : List UInt8}

def Directive.letters : Directive → List UInt8
  | .signed => [100]
  | .unsigned => [117]
  | .hex => [120]
  | .string => [115]
  | .char => [99]
  | .longUnsigned => [108, 108, 117]
  | .longHex => [108, 108, 120]
  | .byteHex => [48, 50, 120]

def Item.spelling : Item → List UInt8
  | .lit c => [c]
  | .dir d => 37 :: d.letters
  | .percent => [37, 37]

def spelling (items : List Item) : List UInt8 := items.flatMap Item.spelling

def Literals (items : List Item) : Prop := ∀ c, .lit c ∈ items → c ≠ 37 ∧ c ≠ 0

def Item.directive : Item → Option Directive
  | .dir d => some d
  | _ => none

def directives (items : List Item) : List Directive := items.filterMap Item.directive

inductive Directive.Takes : Directive → Arg → Prop
  | signed (v : BitVec 32) : Takes .signed (.int v)
  | unsigned (v : BitVec 32) : Takes .unsigned (.int v)
  | hex (v : BitVec 32) : Takes .hex (.int v)
  | string (cs : List UInt8) : Takes .string (.str cs)
  | char (v : BitVec 32) : Takes .char (.int v)
  | longUnsigned (v : BitVec 64) : Takes .longUnsigned (.long v)
  | longHex (v : BitVec 64) : Takes .longHex (.long v)
  | byteHex (v : BitVec 32) : Takes .byteHex (.int v)

def Matching (items : List Item) (args : List Arg) : Prop :=
  List.Forall₂ Directive.Takes (directives items) args

/-- The value of an argument as its directive asks for it. Hexadecimal numbers have `0x` in
front, as `%x` prints them, but for those of two digits. -/
def valueText : Directive → Arg → List UInt8
  | .signed, .int v => signedNumeral v.toInt
  | .unsigned, .int v => numeral 10 v.toNat
  | .hex, .int v => 48 :: 120 :: numeral 16 v.toNat
  | .string, .str cs => cs
  | .char, .int v => [UInt8.ofBitVec (v.setWidth 8)]
  | .longUnsigned, .long v => numeral 10 v.toNat
  | .longHex, .long v => 48 :: 120 :: numeral 16 v.toNat
  | .byteHex, .int v => List.replicate (2 - (numeral 16 v.toNat).length) 48 ++ numeral 16 v.toNat
  | _, _ => []

def render (text : Directive → Arg → List UInt8) (pct : List UInt8) :
    List Item → List Arg → List UInt8
  | [], _ => []
  | .lit c :: items, args => c :: render text pct items args
  | .percent :: items, args => pct ++ render text pct items args
  | .dir d :: items, a :: args => text d a ++ render text pct items args
  | .dir _ :: _, [] => []

def casesWith (pct : List UInt8) (c : UInt8) (args : List Arg) : Option (List UInt8 × List Arg) :=
  if c = 37 then some (pct, args) else formatCase c args

theorem printkCase_eq : printkCase = casesWith [37] := rfl

theorem formatCase_eq : formatCase = casesWith [] := by
  funext c args
  rw [casesWith]
  split_ifs with hc
  · rw [hc]
    rfl
  · rfl

theorem formatLoop_lit {c : UInt8} (hc : c ≠ 37) (fmt : List UInt8) (args : List Arg) :
    formatLoop (casesWith pct) (c :: fmt) args =
      (formatLoop (casesWith pct) fmt args).map fun (rest, args) => (c :: rest, args) := by
  rw [formatLoop.eq_def]
  exact if_neg hc

theorem formatLoop_case (c : UInt8) (fmt : List UInt8) (args : List Arg) :
    formatLoop (casesWith pct) (37 :: c :: fmt) args =
      (casesWith pct c args).bind fun (out, args) =>
        (formatLoop (casesWith pct) fmt args).map fun (rest, args) => (out ++ rest, args) := by
  rw [formatLoop]
  exact if_pos rfl

def Directive.handled : Directive → Bool
  | .longUnsigned | .longHex | .byteHex => false
  | _ => true

def printedText (d : Directive) (a : Arg) : List UInt8 :=
  if d = .signed ∧ a = .int (BitVec.intMin 32) then 45 :: numeral 10 (2 ^ 64 - 2 ^ 31)
    else valueText d a

theorem toNat_lt_long (v : BitVec 32) : v.toNat < 2 ^ 64 := v.isLt.trans (by decide)

theorem casesWith_handled (pct : List UInt8) {d : Directive} (hd : d.handled = true) {a : Arg}
    (ha : d.Takes a) (args : List Arg) :
    ∃ c, d.letters = [c] ∧ casesWith pct c (a :: args) = some (printedText d a, args) := by
  cases ha with
  | signed v =>
    refine ⟨100, rfl, ?_⟩
    by_cases hv : v = BitVec.intMin 32
    · simp [casesWith, formatCase, vaInt, hv, putSigned_intMin, printedText]
    · simp [casesWith, formatCase, vaInt, putSigned_eq hv, printedText, hv, valueText]
  | unsigned v =>
    refine ⟨117, rfl, ?_⟩
    simp [casesWith, formatCase, vaInt, kputnum_eq (toNat_lt_long v), printedText, valueText]
  | hex v =>
    refine ⟨120, rfl, ?_⟩
    simp [casesWith, formatCase, vaInt, kputnum_eq (toNat_lt_long v), printedText, valueText]
  | string cs => exact ⟨115, rfl, by simp [casesWith, formatCase, vaStr, printedText, valueText]⟩
  | char v => exact ⟨99, rfl, by simp [casesWith, formatCase, vaInt, printedText, valueText]⟩
  | longUnsigned v => simp [Directive.handled] at hd
  | longHex v => simp [Directive.handled] at hd
  | byteHex v => simp [Directive.handled] at hd

theorem formatLoop_handled {d : Directive} (hd : d.handled = true) {a : Arg} (ha : d.Takes a)
    (fmt : List UInt8) (args : List Arg) :
    formatLoop (casesWith pct) (37 :: (d.letters ++ fmt)) (a :: args) =
      (formatLoop (casesWith pct) fmt args).map fun (rest, args) =>
        (printedText d a ++ rest, args) := by
  obtain ⟨c, hletters, hprint⟩ := casesWith_handled pct hd ha args
  rw [hletters, List.singleton_append, formatLoop_case, hprint]
  rfl

theorem formatLoop_percent (fmt : List UInt8) (args : List Arg) :
    formatLoop (casesWith pct) (37 :: 37 :: fmt) args =
      (formatLoop (casesWith pct) fmt args).map fun (rest, args) => (pct ++ rest, args) := by
  rw [formatLoop_case, casesWith, if_pos rfl]
  rfl

theorem vaInt_length {v : BitVec 32} {rest : List Arg} (h : vaInt args = some (v, rest)) :
    args.length = rest.length + 1 := by
  cases args with
  | nil => simp [vaInt] at h
  | cons a args => cases a <;> simp_all [vaInt]

theorem vaInt_put_length {g : BitVec 32 → Option (List UInt8)} {k : List UInt8 → List UInt8}
    {out : List UInt8} {rest : List Arg}
    (h : ((vaInt args).bind fun (val, args) => (g val).map fun out => (k out, args)) =
      some (out, rest)) : args.length = rest.length + 1 := by
  obtain ⟨⟨v, left⟩, hva, hout⟩ := Option.bind_eq_some_iff.mp h
  obtain ⟨text, -, heq⟩ := Option.map_eq_some_iff.mp hout
  obtain ⟨-, rfl⟩ := Prod.mk.inj heq
  exact vaInt_length hva

theorem vaStr_length {out : List UInt8} {rest : List Arg} (h : vaStr args = some (out, rest)) :
    args.length = rest.length + 1 := by
  cases args with
  | nil => simp [vaStr] at h
  | cons a args => cases a <;> simp_all [vaStr]

theorem casesWith_length (pct : List UInt8) {d : Directive} (hd : d.handled = true) :
    ∃ c, d.letters = [c] ∧ ∀ args out rest, casesWith pct c args = some (out, rest) →
      args.length = rest.length + 1 := by
  cases d with
  | signed => exact ⟨100, rfl, fun args out rest h => vaInt_put_length h⟩
  | unsigned =>
    exact ⟨117, rfl, fun args out rest h => vaInt_put_length (g := fun v => kputnum v.toNat 10) h⟩
  | hex =>
    exact ⟨120, rfl, fun args out rest h => vaInt_put_length (g := fun v => kputnum v.toNat 16) h⟩
  | string => exact ⟨115, rfl, fun args out rest h => vaStr_length h⟩
  | char =>
    refine ⟨99, rfl, fun args out rest h => ?_⟩
    obtain ⟨⟨v, left⟩, hva, heq⟩ := Option.map_eq_some_iff.mp h
    obtain ⟨-, rfl⟩ := Prod.mk.inj heq
    exact vaInt_length hva
  | longUnsigned => simp [Directive.handled] at hd
  | longHex => simp [Directive.handled] at hd
  | byteHex => simp [Directive.handled] at hd

theorem casesWith_unhandled (pct : List UInt8) {d : Directive} (hd : d.handled = false) :
    ∃ c x y, d.letters = [c, x, y] ∧ x ≠ 37 ∧ y ≠ 37 ∧ ∀ args, casesWith pct c args =
      some ([], args) := by
  cases d with
  | longUnsigned => exact ⟨108, 108, 117, rfl, by decide, by decide, fun args => rfl⟩
  | longHex => exact ⟨108, 108, 120, rfl, by decide, by decide, fun args => rfl⟩
  | byteHex => exact ⟨48, 50, 120, rfl, by decide, by decide, fun args => rfl⟩
  | signed => simp [Directive.handled] at hd
  | unsigned => simp [Directive.handled] at hd
  | hex => simp [Directive.handled] at hd
  | string => simp [Directive.handled] at hd
  | char => simp [Directive.handled] at hd

theorem map_print {r : Option (List UInt8 × List Arg)} {k : List UInt8 → List UInt8}
    {out : List UInt8} {rest : List Arg}
    (h : (r.map fun (more, args) => (k more, args)) = some (out, rest)) :
    ∃ more, r = some (more, rest) := by
  obtain ⟨⟨more, left⟩, hr, heq⟩ := Option.map_eq_some_iff.mp h
  obtain ⟨-, rfl⟩ := Prod.mk.inj heq
  exact ⟨more, hr⟩

theorem formatLoop_length (hlit : Literals items) {out : List UInt8} {rest : List Arg}
    (h : formatLoop (casesWith pct) (spelling items) args = some (out, rest)) :
    args.length = rest.length + (directives items).countP Directive.handled := by
  induction items generalizing args out with
  | nil =>
    obtain ⟨-, rfl⟩ := Prod.mk.inj (Option.some_inj.mp h)
    rfl
  | cons i items ih =>
    have hrest : Literals items := fun c hc => hlit c (List.mem_cons_of_mem _ hc)
    rw [spelling, List.flatMap_cons, ← spelling] at h
    cases i with
    | lit c =>
      rw [Item.spelling, List.singleton_append, formatLoop_lit (hlit c List.mem_cons_self).1] at h
      obtain ⟨more, hmore⟩ := map_print h
      exact ih hrest hmore
    | percent =>
      rw [Item.spelling, List.cons_append, List.singleton_append, formatLoop_percent] at h
      obtain ⟨more, hmore⟩ := map_print h
      exact ih hrest hmore
    | dir d =>
      have hdirs : directives (.dir d :: items) = d :: directives items := rfl
      rw [Item.spelling, List.cons_append] at h
      rw [hdirs]
      cases hd : d.handled with
      | true =>
        obtain ⟨c, hletters, htakes⟩ := casesWith_length pct hd
        rw [hletters, List.singleton_append, formatLoop_case] at h
        obtain ⟨⟨text, left⟩, hcase, hloop⟩ := Option.bind_eq_some_iff.mp h
        obtain ⟨more, hmore⟩ := map_print hloop
        rw [List.countP_cons_of_pos hd, htakes _ _ _ hcase, ih hrest hmore]
        rfl
      | false =>
        obtain ⟨c, x, y, hletters, hx, hy, hskip⟩ := casesWith_unhandled pct hd
        rw [hletters, List.cons_append, formatLoop_case, hskip] at h
        obtain ⟨more, hmore⟩ := map_print h
        rw [List.cons_append, formatLoop_lit hx] at hmore
        obtain ⟨more', hmore'⟩ := map_print hmore
        rw [List.singleton_append, formatLoop_lit hy] at hmore'
        obtain ⟨more'', hmore''⟩ := map_print hmore'
        rw [List.countP_cons_of_neg (by simp [hd])]
        exact ih hrest hmore''

theorem formatLoop_render (hlit : Literals items) (hmatch : Matching items args)
    (hall : ∀ d ∈ directives items, d.handled = true) :
    formatLoop (casesWith pct) (spelling items) args =
      some (render printedText pct items args, []) := by
  induction items generalizing args with
  | nil =>
    obtain rfl : args = [] := List.forall₂_nil_left_iff.mp hmatch
    rfl
  | cons i items ih =>
    have hrest : Literals items := fun c hc => hlit c (List.mem_cons_of_mem _ hc)
    rw [spelling, List.flatMap_cons, ← spelling]
    cases i with
    | lit c =>
      rw [Item.spelling, List.singleton_append, formatLoop_lit (hlit c List.mem_cons_self).1,
        ih hrest hmatch hall]
      rfl
    | percent =>
      rw [Item.spelling, List.cons_append, List.singleton_append, formatLoop_percent,
        ih hrest hmatch hall]
      rfl
    | dir d =>
      obtain ⟨a, args', ha, hmore, rfl⟩ := List.forall₂_cons_left_iff.mp hmatch
      have hd := hall d List.mem_cons_self
      rw [Item.spelling, List.cons_append, formatLoop_handled hd ha,
        ih hrest hmore fun e he => hall e (List.mem_cons_of_mem _ he)]
      rfl

def Item.isLit : Item → Bool
  | .lit _ => true
  | _ => false

theorem length_render (text : Directive → Arg → List UInt8) (pct : List UInt8)
    (hlen : (directives items).length = args.length) :
    (render text pct items args).length =
      items.countP Item.isLit + pct.length * items.count .percent +
        (((directives items).zip args).map fun p => (text p.1 p.2).length).sum := by
  induction items generalizing args with
  | nil => simp [render, directives]
  | cons i items ih =>
    cases i with
    | lit c =>
      have hrest := ih hlen
      have hdirs : directives (.lit c :: items) = directives items := rfl
      rw [hdirs, render, List.length_cons, hrest, List.countP_cons_of_pos rfl,
        List.count_cons_of_ne (by simp)]
      omega
    | percent =>
      have hrest := ih hlen
      have hdirs : directives (.percent :: items) = directives items := rfl
      rw [hdirs, render, List.length_append, hrest, List.countP_cons_of_neg (by simp [Item.isLit]),
        List.count_cons_self, Nat.mul_succ]
      omega
    | dir d =>
      have hdirs : directives (.dir d :: items) = d :: directives items := rfl
      rw [hdirs] at hlen ⊢
      cases args with
      | nil => simp at hlen
      | cons a args =>
        have hrest := ih (Nat.succ_injective hlen)
        rw [render, List.length_append, hrest, List.countP_cons_of_neg (by simp [Item.isLit]),
          List.count_cons_of_ne (by simp), List.zip_cons_cons, List.map_cons, List.sum_cons]
        dsimp only
        omega

theorem render_congr {text text' : Directive → Arg → List UInt8} (pct : List UInt8)
    (h : ∀ p ∈ (directives items).zip args, text p.1 p.2 = text' p.1 p.2) :
    render text pct items args = render text' pct items args := by
  induction items generalizing args with
  | nil => rfl
  | cons i items ih =>
    cases i with
    | lit c => rw [render, render, ih h]
    | percent => rw [render, render, ih h]
    | dir d =>
      cases args with
      | nil => rfl
      | cons a args =>
        obtain ⟨ha, hrest⟩ := List.forall_mem_cons.mp h
        rw [render, render, ih hrest]
        exact congrArg (· ++ _) ha

theorem render_percent (text : Directive → Arg → List UInt8) (h : .percent ∉ items)
    (pct pct' : List UInt8) (args : List Arg) :
    render text pct items args = render text pct' items args := by
  induction items generalizing args with
  | nil => rfl
  | cons i items ih =>
    have hrest := ih fun hmem => h (List.mem_cons_of_mem _ hmem)
    cases i with
    | lit c => rw [render, render, hrest]
    | percent => exact absurd List.mem_cons_self h
    | dir d =>
      cases args with
      | nil => rfl
      | cons a args => rw [render, render, hrest]

theorem length_leastInt :
    (valueText .signed (.int (BitVec.intMin 32))).length = 11 ∧
      (printedText .signed (.int (BitVec.intMin 32))).length = 21 := by
  have hvalue : numeral 10 (2 ^ 31) = [50, 49, 52, 55, 52, 56, 51, 54, 52, 56] :=
    Option.some_inj.mp ((kputnum_eq (by decide) (Or.inl rfl)).symm.trans (by decide +kernel))
  have hprinted : numeral 10 (2 ^ 64 - 2 ^ 31) =
      [49, 56, 52, 52, 54, 55, 52, 52, 48, 55, 49, 53, 54, 50, 48, 54, 55, 57, 54, 56] :=
    Option.some_inj.mp ((kputnum_eq (by decide) (Or.inl rfl)).symm.trans (by decide +kernel))
  have habs : (BitVec.intMin 32).toInt.natAbs = 2 ^ 31 := by decide
  constructor
  · rw [valueText, signedNumeral, if_pos (by decide), habs, hvalue]
    rfl
  · rw [printedText, if_pos ⟨rfl, rfl⟩, hprinted]
    rfl

theorem length_printedText (d : Directive) (a : Arg) :
    (valueText d a).length ≤ (printedText d a).length := by
  by_cases hmin : d = .signed ∧ a = .int (BitVec.intMin 32)
  · rw [hmin.1, hmin.2, length_leastInt.1, length_leastInt.2]
    decide
  · rw [printedText, if_neg hmin]

def PrintkPairs (items : List Item) (args : List Arg) : Prop :=
  printk (spelling items) args = some (render valueText [37] items args, [])

def KlogPairs (level : ℤ) (items : List Item) (args : List Arg) : Prop :=
  klog level (spelling items) args =
    some (levelText level ++ render valueText [37] items args ++ [10], [])

def KlogFollows (level : ℤ) (items : List Item) (args : List Arg) : Prop :=
  ∃ out rest, printk (spelling items) args = some (out, rest) ∧
    klog level (spelling items) args = some (levelText level ++ out ++ [10], rest)

def NoLeastInt (items : List Item) (args : List Arg) : Prop :=
  (Directive.signed, Arg.int (BitVec.intMin 32)) ∉ (directives items).zip args

def ShortDirectives (items : List Item) : Prop :=
  ∀ d ∈ directives items, d ≠ .longUnsigned ∧ d ≠ .longHex ∧ d ≠ .byteHex

theorem shortDirectives_iff : ShortDirectives items ↔ ∀ d ∈ directives items, d.handled = true := by
  refine forall₂_congr fun d _ => ?_
  cases d <;> simp [Directive.handled]

section Pairs
variable (hlit : Literals items) (hmatch : Matching items args)
include hlit hmatch

theorem shortDirectives_of_taken {out : List UInt8}
    (h : formatLoop (casesWith pct) (spelling items) args = some (out, [])) :
    ShortDirectives items := by
  have htaken := formatLoop_length hlit h
  rw [← hmatch.length_eq, List.length_nil, Nat.zero_add] at htaken
  exact shortDirectives_iff.mpr (List.countP_eq_length.mp htaken.symm)

omit hlit in
theorem render_printed_iff (pct : List UInt8) :
    render printedText pct items args = render valueText pct items args ↔
      NoLeastInt items args := by
  constructor
  · intro heq hmem
    have hlen := congrArg List.length heq
    rw [length_render _ _ hmatch.length_eq, length_render _ _ hmatch.length_eq] at hlen
    have hlt : (((directives items).zip args).map fun p => (valueText p.1 p.2).length).sum <
        (((directives items).zip args).map fun p => (printedText p.1 p.2).length).sum := by
      refine List.sum_lt_sum _ _ (fun p _ => length_printedText p.1 p.2) ⟨_, hmem, ?_⟩
      rw [length_leastInt.1, length_leastInt.2]
      decide
    omega
  · intro hno
    refine render_congr pct fun p hp => ?_
    rw [printedText, if_neg]
    rintro ⟨hd, ha⟩
    exact hno (by rwa [← hd, ← ha])

theorem printkPairs_iff :
    PrintkPairs items args ↔ ShortDirectives items ∧ NoLeastInt items args := by
  rw [PrintkPairs, printk, printkCase_eq, ← render_printed_iff hmatch [37]]
  constructor
  · intro h
    have hshort := shortDirectives_of_taken hlit hmatch h
    rw [formatLoop_render hlit hmatch (shortDirectives_iff.mp hshort)] at h
    exact ⟨hshort, (Prod.mk.inj (Option.some_inj.mp h)).1⟩
  · rintro ⟨hshort, hno⟩
    rw [formatLoop_render hlit hmatch (shortDirectives_iff.mp hshort), hno]

theorem klogFollows_iff (hshort : ShortDirectives items) (level : ℤ) :
    KlogFollows level items args ↔ .percent ∉ items := by
  have hall := shortDirectives_iff.mp hshort
  rw [KlogFollows, printk, printkCase_eq, klog, formatCase_eq, formatLoop_render hlit hmatch hall,
    formatLoop_render hlit hmatch hall]
  constructor
  · rintro ⟨out, rest, hprintk, hklog⟩
    obtain ⟨rfl, rfl⟩ := Prod.mk.inj (Option.some_inj.mp hprintk)
    have hbody := (Prod.mk.inj (Option.some_inj.mp hklog)).1
    rw [List.append_left_inj, List.append_right_inj] at hbody
    -- the text of `klog` is shorter by one character for each `%%`
    have hlen := congrArg List.length hbody
    rw [length_render _ _ hmatch.length_eq, length_render _ _ hmatch.length_eq, List.length_nil,
      List.length_singleton] at hlen
    exact List.count_eq_zero.mp (by omega)
  · intro hno
    refine ⟨_, _, rfl, ?_⟩
    rw [render_percent printedText hno [37] []]
    rfl

end Pairs

/-- `printk` pairs directives and arguments exactly when there is no `%llu`, `%llx` or `%02x`
and no `%d` for the least `int`, and `klog` does so and agrees with it exactly when there is
no `%%` besides. -/
theorem formats_paired_iff (items : List Item) (args : List Arg) (level : ℤ) (hlit : Literals items)
    (hmatch : Matching items args) :
    (PrintkPairs items args ↔ ShortDirectives items ∧ NoLeastInt items args) ∧
    (PrintkPairs items args ∧ KlogPairs level items args ∧ KlogFollows level items args ↔
      ShortDirectives items ∧ NoLeastInt items args ∧ .percent ∉ items) := by
  refine ⟨printkPairs_iff hlit hmatch, ?_⟩
  rw [printkPairs_iff hlit hmatch, and_assoc]
  refine and_congr_right fun hshort => and_congr_right fun hno => ?_
  rw [klogFollows_iff hlit hmatch hshort, and_iff_right_iff_imp]
  intro hpercent
  rw [KlogPairs, klog, formatCase_eq, formatLoop_render hlit hmatch (shortDirectives_iff.mp hshort),
    (render_printed_iff hmatch []).mpr hno, render_percent valueText hpercent [37] []]
  rfl

theorem formats_paired_hex :
    PrintkPairs [.lit 97, .dir .hex, .lit 32, .dir .string] [.int 7, .str [98]] ∧
    KlogPairs 0 [.lit 97, .dir .hex, .lit 32, .dir .string] [.int 7, .str [98]] ∧
    KlogFollows 0 [.lit 97, .dir .hex, .lit 32, .dir .string] [.int 7, .str [98]] := by
  have hlit : Literals [.lit 97, .dir .hex, .lit 32, .dir .string] := by simp [Literals]
  have hmatch : Matching [.lit 97, .dir .hex, .lit 32, .dir .string] [.int 7, .str [98]] :=
    .cons (.hex 7) (.cons (.string [98]) .nil)
  refine (formats_paired_iff _ _ 0 hlit hmatch).2.mpr ⟨?_, ?_, by simp⟩
  · rw [ShortDirectives]
    decide
  · rw [NoLeastInt]
    decide

/-- After `%llu` the directive `%u` meets the 64-bit argument; two `%llu` leave both of their
arguments; `%02x` leaves its argument to the `%u` behind it; and `klog` drops `%%`. -/
theorem formats_unpaired :
    printk (spelling [.dir .longUnsigned, .lit 32, .dir .unsigned]) [.long 5, .int 6] = none ∧
    printk (spelling [.dir .longUnsigned, .lit 32, .dir .longUnsigned]) [.long 5, .long 6] =
      some ([108, 117, 32, 108, 117], [.long 5, .long 6]) ∧
    printk (spelling [.dir .byteHex, .lit 32, .dir .unsigned]) [.int 5, .int 6] =
      some ([50, 120, 32, 53], [.int 6]) ∧
    printk (spelling [.lit 53, .percent]) [] = some ([53, 37], []) ∧
    klog 0 (spelling [.lit 53, .percent]) [] = some (levelText 0 ++ [53] ++ [10], []) := by
  decide +kernel

end XldKernel.Klog
