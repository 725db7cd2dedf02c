import ChromiumUI.RenderText
import ChromiumUI.Notification
import ChromiumUI.IDMap
import ChromiumUI.ShuffleFailures
import ChromiumUI.DataPack
import ChromiumUI.GestureBrackets
import ChromiumUI.GestureRecognizer
import ChromiumUI.TouchTransfer
import ChromiumUI.Histogram
import ChromiumUI.FocusTraversal
import ChromiumUI.MessageLoopOrder
import ChromiumUI.MessagePumpDefault
import ChromiumUI.AnimatedLayerTargets
import ChromiumUI.DynamicThreadPool
import ChromiumUI.TraceLog
import ChromiumUI.WaitableEvent
import ChromiumUI.JsonComments
import ChromiumUI.CustomData
import ChromiumUI.Timer
import ChromiumUI.WinXPCondVarRuns
import ChromiumUI.ScrollView
import ChromiumUI.FocusCycles
import ChromiumUI.ObserverListDelivery
import ChromiumUI.HexNumbers
import ChromiumUI.MRUCache
import ChromiumUI.JsonWriter
import ChromiumUI.PickleRuns
import ChromiumUI.TextfieldUndoRedo
import ChromiumUI.JsonPieces
import ChromiumUI.JsonOverreads
import ChromiumUI.RectSets
import ChromiumUI.TreeNodeIterator
import ChromiumUI.TreeNodes
import ChromiumUI.Version
import ChromiumUI.CollapseWhitespace
import ChromiumUI.TruncateUTF8
import ChromiumUI.OffsetConversions
import ChromiumUI.MatchPattern
import ChromiumUI.ReplacePlaceholders
import ChromiumUI.SampleSets
import ChromiumUI.FieldTrialList
import ChromiumUI.RectangleString
import ChromiumUI.RectangleTextRuns
import ChromiumUI.TruncatedText
import ChromiumUI.SequencePlays
import ChromiumUI.AnimationSequences
import ChromiumUI.GridFills
import ChromiumUI.ColumnFits
import ChromiumUI.MouseMoveHolding
import ChromiumUI.TransientStacking
import ChromiumUI.AcceleratorManager
import ChromiumUI.DictionaryValue
import ChromiumUI.TreeViewExpandAll
import ChromiumUI.FocusSiblings
import ChromiumUI.WorkerPoolShutdown
import ChromiumUI.AppsGridView
import ChromiumUI.VlogPattern
import ChromiumUI.ArgvQuoting
import ChromiumUI.Sha1
import ChromiumUI.StringPieces
import ChromiumUI.StatsTables
