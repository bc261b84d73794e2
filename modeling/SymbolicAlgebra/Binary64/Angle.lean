/-!
# Degrees and radians

Each conversion is one multiplication by a factor that is itself rounded to a double.
-/
namespace SymbolicAlgebra.Binary64

/-- The double nearest to the ratio of a circle's circumference to its diameter. -/
def pi : Float := 3.141592653589793

def radians (degrees : Float) : Float := degrees * (pi / 180.0)

def degrees (radians : Float) : Float := radians * (180.0 / pi)

end SymbolicAlgebra.Binary64
