/-! What a new project starts with: a document and a manifest. -/

namespace DesignSystem

/-- Lines as a text. -/
def unlines (lines : List String) : String :=
  String.join (lines.map (· ++ "\n"))

/-- The document that a new project starts with. -/
def starterDocument : String :=
  unlines [
    "breakpoints",
    "\tsmall 576",
    "\tmedium 768",
    "\tlarge 992",
    "aliases",
    "\ttokens",
    "\t\tcolor backgroundColor,color,borderColor",
    "\t\tsize width,height",
    "tokens",
    "\tcolor",
    "\t\tprimary blue",
    "\t\tprimaryDark darkblue",
    "\t\tdanger red",
    "\t\tdangerDark darkred",
    "\t\tprimaryText black",
    "\t\tlightText white",
    "\t\tsecondaryBackground #E4E4E4",
    "\tborderRadius",
    "\t\tsm 3",
    "\t\tmd 6",
    "\tsize",
    "\t\tcontrolRegularHeight 40",
    "\t\tcontrolLargeHeight 50",
    "\tspacing",
    "\t\tgutter",
    "\t\t\tbase 8",
    "\t\t\tmedium 16",
    "\tborderWidth",
    "\t\tregular 2",
    "elements",
    "\tbutton",
    "\t\tborderRadius sm",
    "\t\tcolor lightText",
    "\t\tpadding",
    "\t\t\tbase 8",
    "\t\t\tlarge 12",
    "\t\troles",
    "\t\t\tprimary",
    "\t\t\t\tbackgroundColor primary",
    "\t\t\t\t:hover",
    "\t\t\t\t\tbackgroundColor primaryDark",
    "\t\t\tdanger",
    "\t\t\t\tbackgroundColor danger",
    "\t\t\t\t:hover",
    "\t\t\t\t\tbackgroundColor dangerDark",
    "\t\tsize",
    "\t\t\tregular",
    "\t\t\t\theight controlRegularHeight",
    "\t\t\tlarge",
    "\t\t\t\theight controlLargeHeight",
    "\tinput",
    "\t\tborderRadius sm",
    "\t\tcolor primaryText",
    "\t\tborderStyle solid",
    "\t\tborderWidth regular",
    "\t\tborderColor transparent",
    "\t\troles",
    "\t\t\tprimary",
    "\t\t\t\tbackgroundColor secondaryBackground",
    "\t\t\t\t:hover",
    "\t\t\t\t\tborderColor primary",
    "\t\t\t\t:focus",
    "\t\t\t\t\tborderColor primary"]

/-- The manifest that a new project starts with. -/
def starterManifest : String :=
  unlines ["sources:", "  - \"./\"", "output: dist", "pretty: true"]

end DesignSystem
