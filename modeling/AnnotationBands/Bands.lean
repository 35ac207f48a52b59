import AnnotationBands.Band
/-!
The values of the bands of a group. Bands only ever grow at their ends and are
cut back at their ends, so the lengths at one point in time (`Bands.mark`) are
enough to come back to that point.
-/

namespace AnnotationBands

/-- The values of each band. -/
abbrev Bands := PerBand (List Int)

/-- A length of each band: a point in the life of the bands. -/
abbrev Mark := PerBand Nat

/-- The sum of values in a 64-bit word with a sign. It wraps around where it
leaves the range of the word; a build that checks for that stops instead. -/
def wordSum (values : List Int) : Int := (values.foldr (fun v s => Int64.ofInt v + s) 0).toInt

namespace Bands

def empty : Bands := PerBand.const []

def isEmpty (bands : Bands) : Bool := Band.all.all fun b => (bands.get b).isEmpty

def sum (bands : Bands) (b : Band) : Int := wordSum (bands.get b)

def mark (bands : Bands) : Mark := bands.map List.length

/-- Bands with one value in one band. -/
def single (b : Band) (value : Int) : Bands := PerBand.ofFn fun b' => if b' = b then [value] else []

def append (bands more : Bands) : Bands := PerBand.ofFn fun b => bands.get b ++ more.get b

instance : Append Bands := ⟨append⟩

def push (bands : Bands) (b : Band) (value : Int) : Bands := bands.modify b (· ++ [value])

/-- Cuts the content bands back to a mark and leaves the bands of entry counts
alone. -/
def truncateContent (bands : Bands) (mark : Mark) : Bands :=
  PerBand.ofFn fun b => if b.isEntryCount then bands.get b else (bands.get b).take (mark.get b)

/-- The sum of a band from a mark on. It is taken of the counts in a group's
trees only; these add up to no more than the number of tags, which fits a word,
so it is not reduced to one. -/
def sumSince (bands : Bands) (b : Band) (mark : Mark) : Int := ((bands.get b).drop (mark.get b)).foldr (· + ·) 0

theorem get_empty (b : Band) : empty.get b = [] := PerBand.get_const _ b

theorem get_push (bands : Bands) (b b' : Band) (value : Int) :
    (bands.push b value).get b' = if b' = b then bands.get b' ++ [value] else bands.get b' := PerBand.get_modify _ _ _ _

theorem get_append (bands more : Bands) (b : Band) : (bands ++ more).get b = bands.get b ++ more.get b :=
  PerBand.get_ofFn _ b

theorem get_single (b b' : Band) (value : Int) : (single b value).get b' = if b' = b then [value] else [] :=
  PerBand.get_ofFn _ b'

theorem get_mark (bands : Bands) (b : Band) : bands.mark.get b = (bands.get b).length := PerBand.get_map _ _ b

theorem get_truncateContent (bands : Bands) (mark : Mark) (b : Band) :
    (bands.truncateContent mark).get b = if b.isEntryCount then bands.get b else (bands.get b).take (mark.get b) :=
  PerBand.get_ofFn _ b

end Bands

end AnnotationBands
