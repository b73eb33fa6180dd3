import HookStyle.Text.Start

/-!
# Property names

A property may be named in camel case (`zIndex`, `WebkitLineClamp`) or as CSS writes it
(`z-index`, `-webkit-line-clamp`). CSS text uses the second form, and the table of
properties whose numbers carry no unit uses the first, without a vendor's name.

Only ASCII letters have a case here: all other characters stand in both forms as they are.

* `hyphenate_of_dash`: a name that starts with a dash is already in CSS form.
* `isUnitless_custom`: custom properties never take a unit.
-/

namespace HookStyle.Css.Property

/-! ## From camel case -/

/-- Writes each capital as a dash and its small letter. -/
def splitCapitals (cs : List Char) : List Char :=
  cs.flatMap fun c => if c.isUpper then ['-', c.toLower] else [c]

/-- The vendor name `ms` before a capital; it is the one that is not itself capitalised. -/
def startsWithMs : List Char → Bool
  | 'm' :: 's' :: c :: _ => c.isUpper
  | _ => false

/-- The CSS form of a name. -/
def hyphens (cs : List Char) : List Char :=
  if cs.head? = some '-' then cs
  else if startsWithMs cs then '-' :: splitCapitals cs
  else splitCapitals cs

def hyphenate (property : String) : String := String.ofList (hyphens property.toList)

/-! ## To camel case -/

/-- Drops the dashes, and raises the letter that follows one; `raised` tells that one came
just before. -/
def joinWords : Bool → List Char → List Char
  | _, [] => []
  | raised, c :: cs =>
    if c = '-' then joinWords true cs
    else (if raised then c.toUpper else c) :: joinWords false cs

/-- The camel-case form of a name. Leading dashes raise nothing. -/
def camelize (cs : List Char) : List Char :=
  if '-' ∈ cs then joinWords false (cs.dropWhile (· == '-')) else cs

def vendors : List (List Char) :=
  ["Webkit", "webkit", "Moz", "moz", "ms", "O"].map String.toList

/-- What follows a vendor's name, with its capital made small. -/
def afterVendor? (cs vendor : List Char) : Option (List Char) :=
  match Text.stripStart? vendor cs with
  | some (c :: rest) => if c.isUpper then some (c.toLower :: rest) else none
  | _ => none

/-- A camel-case name without the vendor's name. -/
def unprefixed (cs : List Char) : List Char := (vendors.findSome? (afterVendor? cs)).getD cs

/-! ## Units -/

/-- The properties whose numbers carry no unit, in camel case without a vendor's name. -/
def unitlessNames : List String :=
  ["animationIterationCount", "aspectRatio", "borderImageOutset", "borderImageSlice",
    "borderImageWidth", "boxFlex", "boxFlexGroup", "boxOrdinalGroup", "columnCount", "columns",
    "fillOpacity", "flex", "flexGrow", "flexNegative", "flexOrder", "flexPositive", "flexShrink",
    "floodOpacity", "fontWeight", "gridArea", "gridColumn", "gridColumnEnd", "gridColumnSpan",
    "gridColumnStart", "gridRow", "gridRowEnd", "gridRowSpan", "gridRowStart", "lineClamp",
    "lineHeight", "opacity", "order", "orphans", "scale", "stopOpacity", "strokeDasharray",
    "strokeDashoffset", "strokeMiterlimit", "strokeOpacity", "strokeWidth", "tabSize", "widows",
    "zIndex", "zoom"]

def isCustom (cs : List Char) : Bool := (Text.stripStart? ['-', '-'] cs).isSome

/-- Whether the numbers of a property are written without a unit. -/
def isUnitless (property : String) : Bool :=
  isCustom property.toList ||
    unitlessNames.contains (String.ofList (unprefixed (camelize property.toList)))

theorem hyphenate_of_dash {property : String} (h : property.toList.head? = some '-') :
    hyphenate property = property := by
  simp [hyphenate, hyphens, h]

/-- A custom property takes numbers as they are. -/
theorem isUnitless_custom (name : String) : isUnitless ("--" ++ name) = true := by
  have h : isCustom ("--" ++ name).toList = true := by
    simp [isCustom, Text.stripStart?]
  rw [isUnitless, h, Bool.true_or]

end HookStyle.Css.Property
