import CodeEditor.IndexTree.IndexTreeModel
import CodeEditor.Ipc.WebSocketFraming
import CodeEditor.Ipc.Serialization
import CodeEditor.Ipc.ChannelRequests
import CodeEditor.Ipc.Delivery
import CodeEditor.Decorations.EndOfLine
import CodeEditor.UserDataSync.SnippetsMerge
import CodeEditor.UserDataSync.GlobalStateMerge
import CodeEditor.UserDataSync.ExtensionsConvergence
import CodeEditor.Edits.FromTextEdit
import CodeEditor.EditStack.RoundTrip
import CodeEditor.MergeEditor.MergeRuns
import CodeEditor.TextBuffer.Chunking
import CodeEditor.ContextKey.RoundTrip
import CodeEditor.Keybinding.Reachability
import CodeEditor.Tokens.Incremental
import CodeEditor.Tokens.SparseFollow
import CodeEditor.Tokens.StoreCoverage
import CodeEditor.ViewLayout.ZoneOrder
import CodeEditor.ViewLayout.Exactness
import CodeEditor.ViewModel.MonospaceLineBreaks
import CodeEditor.Cursor.CursorCollection
import CodeEditor.UndoRedo.Moves
import CodeEditor.Streams.WriteableStream
import CodeEditor.Streams.Base64
import CodeEditor.Streams.BinaryIndexOf
import CodeEditor.KeyValueStorage.Storage
import CodeEditor.LineRanges.Runs
import CodeEditor.Diff.DynamicProgramming
import CodeEditor.Edits.Rebase
import CodeEditor.Edits.TextEditMapping
import CodeEditor.BracketPairs.PackedLengths
import CodeEditor.BracketPairs.SmallImmutableSet
import CodeEditor.BracketPairs.BeforeEditPositionMapper
import CodeEditor.BracketPairs.CombineTextEditInfos
import CodeEditor.Uri.FilePaths
import CodeEditor.Watcher.Coalescing
import CodeEditor.ContextKey.Coverage
import CodeEditor.ContextKey.Implication
import CodeEditor.PrefixSum.Agreement
import CodeEditor.TextBuffer.SingleEdit
