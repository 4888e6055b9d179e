import Idula.Cmp.Ispec
import Idula.Zig.Walks

/-! What the two walks leave to the file system, which shows the entries of each directory in no
particular order. -/
namespace Idula.Cmp
open Zig Library
variable {d : Root} {secExt : Option (List Str)} {p q se se' : Str}

namespace If
variable {self : WalkExt}

end If

namespace Ispec

end Ispec
end Idula.Cmp
