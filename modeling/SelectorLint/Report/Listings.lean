import SelectorLint.Report.JsonLines

/-!
# Lists of rules

All rules with what is enabled of them, for people (`humanListings`) or for programs (`jsonListings`).
-/

namespace SelectorLint.Report

/-- What is said of a rule after its id. -/
def listingState (listing : Listing) : String :=
  match listing.options with
  | some options => options.policy.expectation.label ++ " (" ++ options.severity.label ++ ")"
  | none => "disabled"

/-- The list of rules for people. -/
def humanListings (listings : List Listing) : String :=
  String.join <| listings.map fun listing =>
    listing.rule ++ "  " ++ listingState listing ++ "\n    " ++ listing.description ++ "\n"

/-- The record of a rule. -/
def listingRecord (listing : Listing) : Record :=
  let options := match listing.options with
    | some options =>
      [("option", Scalar.text options.policy.expectation.label),
       ("severity", Scalar.text options.severity.label)]
    | none => []
  [("rule", .text listing.rule), ("enabled", .boolean listing.options.isSome)] ++ options
    ++ [("description", .text listing.description)]

/-- The list of rules for programs. -/
def jsonListings (listings : List Listing) : String := writtenLines (listings.map listingRecord)

end SelectorLint.Report
