import Mathlib.Tactic

/-!
# Kernel log: numbers, printk and klog

Source: `kernel/src/klog.c`. The output is the list of the characters that go through
`kputchar`, and a string is the list of its characters before the terminator. A result
`none` is one that C does not define: a store behind the digit buffer, a format that ends
in a lone `%`, an argument read at another type than it was passed with.
-/

namespace XldKernel.Klog

def digitChar (digit : ℕ) : UInt8 :=
  if digit < 10 then UInt8.ofNat (48 + digit) else UInt8.ofNat (97 + digit - 10)

def digitLoop (base : ℕ) : ℕ → ℕ → List UInt8 → Option (List UInt8)
  | room, num, buf =>
    if num = 0 then some buf
    else
      match room with
      | 0 => none
      | room + 1 => digitLoop base room (num / base) (buf ++ [digitChar (num % base)])

def kputnum (num base : ℕ) : Option (List UInt8) :=
  if num = 0 then some [48] else (digitLoop base 32 num []).map List.reverse

/-- The arguments behind the format, of type `int` or `unsigned int`, of a 64-bit type, or
pointers to strings. -/
inductive Arg where
  | int (v : BitVec 32)
  | long (v : BitVec 64)
  | str (cs : List UInt8)
  deriving DecidableEq

def vaInt : List Arg → Option (BitVec 32 × List Arg)
  | .int v :: args => some (v, args)
  | _ => none

def vaStr : List Arg → Option (List UInt8 × List Arg)
  | .str cs :: args => some (cs, args)
  | _ => none

def putSigned (val : BitVec 32) : Option (List UInt8) :=
  if val.toInt < 0 then (kputnum ((-val).signExtend 64).toNat 10).map (45 :: ·)
  else kputnum (val.signExtend 64).toNat 10

/-- The cases `d`, `u`, `x`, `s` and `c`, which both functions have. Any other character is
passed over. -/
def formatCase (c : UInt8) (args : List Arg) : Option (List UInt8 × List Arg) :=
  if c = 100 then
    (vaInt args).bind fun (val, args) => (putSigned val).map fun out => (out, args)
  else if c = 117 then
    (vaInt args).bind fun (val, args) => (kputnum val.toNat 10).map fun out => (out, args)
  else if c = 120 then
    (vaInt args).bind fun (val, args) => (kputnum val.toNat 16).map fun out =>
      (48 :: 120 :: out, args)
  else if c = 115 then vaStr args
  else if c = 99 then
    (vaInt args).map fun (val, args) => ([UInt8.ofBitVec (val.setWidth 8)], args)
  else some ([], args)

def printkCase (c : UInt8) (args : List Arg) : Option (List UInt8 × List Arg) :=
  if c = 37 then some ([37], args) else formatCase c args

def formatLoop (cases : UInt8 → List Arg → Option (List UInt8 × List Arg)) :
    List UInt8 → List Arg → Option (List UInt8 × List Arg)
  | [], args => some ([], args)
  | c :: fmt, args =>
    if c = 37 then
      match fmt with
      | [] => none
      | c :: fmt =>
        (cases c args).bind fun (out, args) =>
          (formatLoop cases fmt args).map fun (rest, args) => (out ++ rest, args)
    else (formatLoop cases fmt args).map fun (rest, args) => (c :: rest, args)

def printk (fmt : List UInt8) (args : List Arg) : Option (List UInt8 × List Arg) :=
  formatLoop printkCase fmt args

def levelText (level : ℤ) : List UInt8 :=
  if level = 0 then [91, 73, 78, 70, 79, 93, 32]
  else if level = 1 then [91, 87, 65, 82, 78, 93, 32]
  else if level = 2 then [91, 69, 82, 82, 79, 82, 93, 32]
  else [91, 76, 79, 71, 93, 32]

def klog (level : ℤ) (fmt : List UInt8) (args : List Arg) : Option (List UInt8 × List Arg) :=
  (formatLoop formatCase fmt args).map fun (out, args) => (levelText level ++ out ++ [10], args)

end XldKernel.Klog
