import Pathway.Engine.Value
import Pathway.Engine.ZSet
import Pathway.Engine.Table
import Pathway.Engine.Expression
import Pathway.Engine.ExpressionRun
import Pathway.Engine.ExpressionDeterministic
import Pathway.Engine.ExpressionRestart
import Pathway.Operators.Stream
import Pathway.Operators.Join
import Pathway.Operators.Ix
import Pathway.Operators.Universe
import Pathway.Operators.Update
import Pathway.Operators.Forget
import Pathway.Operators.Tuples
import Pathway.Operators.Flatten
import Pathway.Operators.GroupBy
import Pathway.Operators.Filter
import Pathway.Operators.AppendOnly
import Pathway.Operators.StatefulReduce
import Pathway.Operators.Output
import Pathway.Connectors.ArrowSchema
import Pathway.Connectors.ArrowArray
import Pathway.Connectors.ArrowEncoder
import Pathway.Connectors.ArrowRoundTrip
