import TravLang.Asmcomp.CmmHelpers.Checkbound
import TravLang.Asmcomp.CmmHelpers.Division
import TravLang.Asmcomp.CmmHelpers.Switches
import TravLang.Asmcomp.Coloring.Allocation
import TravLang.Asmcomp.Deadcode
import TravLang.Asmcomp.Linscan.Scan
import TravLang.Lex.Cset
import TravLang.Lex.Packing
import TravLang.Runtime.Bigarray.Longarray
import TravLang.Runtime.Bigarray.Views
import TravLang.Runtime.Hash.Respects
import TravLang.Runtime.Ints
import TravLang.Runtime.Io.Transparent
import TravLang.Runtime.Marshal.Compat32
import TravLang.Runtime.Marshal.ReachableWords
import TravLang.Runtime.RuntimeEvents
import TravLang.Stdlib.Array.Sort
import TravLang.Stdlib.Array.StableSort
import TravLang.Stdlib.Bytes.Utf8
import TravLang.Stdlib.Hashtbl.FilterMapInplace
import TravLang.Stdlib.InChannel
import TravLang.Stdlib.Lexing.Independence
import TravLang.Stdlib.List.StableSort
import TravLang.Typing.Types.Backtrack
import TravLang.Utils.BuildPathPrefixMap
import TravLang.Utils.Diffing.Optimal
import TravLang.Utils.EditDistance
import TravLang.Utils.Linkdeps
import TravLang.Utils.LoadPath.RemoveDir
import TravLang.Utils.Misc
import TravLang.Utils.StronglyConnectedComponents.Components
import TravLang.Yacc.Closure
