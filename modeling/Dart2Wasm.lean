import Dart2Wasm.ClassInfo.Representation
import Dart2Wasm.Globals
import Dart2Wasm.CodeGenerator.VirtualCall
import Dart2Wasm.CodeGenerator.Finalizers
import Dart2Wasm.WasmBuilder.Soundness
import Dart2Wasm.WasmBuilder.RoundTrip
import Dart2Wasm.CoreLibrary.StringBuffer
import Dart2Wasm.CoreLibrary.DateTime
import Dart2Wasm.CoreLibrary.IntGrammar
import Dart2Wasm.CoreLibrary.HashSetRefinement
import Dart2Wasm.CoreLibrary.HashMapViews
import Dart2Wasm.CoreLibrary.SplayTreeRefinement
import Dart2Wasm.CoreLibrary.Utf8Sinks
import Dart2Wasm.CoreLibrary.BigIntRefinement
import Dart2Wasm.TypeFlow.Hierarchy
import Dart2Wasm.TypeFlow.WorkListFixpoint
import Dart2Wasm.CodeGenerator.Arguments
import Dart2Wasm.DispatchTable.Rows
import Dart2Wasm.CodeGenerator.ConvertType
import Dart2Wasm.CodeGenerator.Switch
import Dart2Wasm.WasmBuilder.TypeDecoding
import Dart2Wasm.CoreLibrary.ListBase
import Dart2Wasm.CoreLibrary.StringHash
