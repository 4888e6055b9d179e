import Idula.Lang.OpLongestMatch
import Idula.Lang.OpOutcomes
import Idula.Lang.Keywords
import Idula.Lang.Watch
import Idula.Cli.Args
import Idula.Cli.ReplHistory
import Idula.Cli.ReplFraming
import Idula.Cli.InitProject
import Idula.Cli.CreateFiles
import Idula.Cli.Context
import Idula.Cmp.WalkOrder
import Idula.Cmp.Idpm
import Idula.Rs.BuildOutputs
import Idula.Is.Grammar
