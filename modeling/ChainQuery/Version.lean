/-! # Version -/

namespace ChainQuery

/-- The version of the term format and its interface. -/
def version : String := "0.4.0"

end ChainQuery
