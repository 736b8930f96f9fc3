/-! Hyphenated forms of names in camel case. -/

namespace DesignSystem

/-- A hyphen goes between a lower case letter and the upper case letter after it, which
becomes lower case. Letters are those of ASCII. -/
def hyphenateAfter (prev : Option Char) : List Char → List Char
  | [] => []
  | c :: cs =>
    if prev.any Char.isLower && c.isUpper then
      '-' :: c.toLower :: hyphenateAfter (some c) cs
    else c :: hyphenateAfter (some c) cs

def hyphenate (name : String) : String :=
  String.ofList (hyphenateAfter none name.toList)

end DesignSystem
