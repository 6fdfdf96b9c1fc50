import CommandTemplate.Decimal.Rounding

namespace CommandTemplate

namespace Toml

/-- The values of a settings file. Of dates and times only the presence is kept. The fields of a
table have the order of their first mention. -/
inductive Value
  | string (s : String)
  | integer (n : Int)
  | float (x : Double)
  | boolean (b : Bool)
  | moment
  | array (items : List Value)
  | table (fields : List (String × Value))

end Toml

end CommandTemplate
