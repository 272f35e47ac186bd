/-!
# Names

The names that the objects of a campaign have are made of the campaign's name and a suffix. A
name has at most 63 bytes, so a long campaign name is cut; the suffix is always there as a whole.
-/

namespace CampaignControl
namespace Naming

/-- The most bytes that a name may have. -/
def maxBytes : Nat := 63

/-- The longest start of a text that has at most so many bytes. -/
def fitting (bytes : Nat) : List Char → List Char
  | [] => []
  | c :: cs => if c.utf8Size ≤ bytes then c :: fitting (bytes - c.utf8Size) cs else []

/-- Whether a character may not end what stands before a suffix. -/
def isSeparator (c : Char) : Bool := c = '-' || c = '.'

/-- The text without separators at its end. -/
def trimSeparators (cs : List Char) : List Char :=
  (cs.reverse.dropWhile isSeparator).reverse

/-- The base, cut so that the suffix fits, and the suffix. -/
def bounded (base suffix : String) : String :=
  String.ofList (trimSeparators (fitting (maxBytes - suffix.utf8ByteSize) base.toList)) ++ suffix

/-- The suffix of the objects that belong to a batch. -/
def batchSuffix (index : Nat) : String := "-batch-" ++ toString index

/-- The suffix of the configuration document. -/
def documentSuffix : String := "-batches"

/-- The name of the work unit of a batch, and of its execution. -/
def workUnit (campaign : String) (index : Nat) : String := bounded campaign (batchSuffix index)

/-- The name of the configuration document of a campaign. -/
def configDocument (campaign : String) : String := bounded campaign documentSuffix

end Naming
end CampaignControl
